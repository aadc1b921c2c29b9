import GameOfThreads.ProcessTable

/-! Descriptor tables: what each way into the kernel does to the descriptors of each process.
execute writes the table of the new process, halt clears its own, open, close and read
change one descriptor of the caller, and everything else leaves all of them alone. -/
namespace GameOfThreads
open Machine

/-- Descriptor `fd` of process `p`. -/
def Kernel.files (k : Kernel) (p fd : ℕ) : FileDes := (k.pcb p).fileDesArray fd

theorem files_of_table {k k' : Kernel} (h : k'.table = k.table) : k'.files = k.files :=
  congrArg (fun (T : Table) p => (T.pcb p).fileDesArray) h

/-- Only descriptor `fd` of process `p` may differ. -/
def OnlyDes (p fd : ℕ) (k k' : Kernel) : Prop :=
  ∀ q g, q ≠ p ∨ g ≠ fd → k'.files q g = k.files q g

theorem setDes_files (fd : ℕ) (des : FileDes) (k : Kernel) (q g : ℕ) :
    (k.setDes fd des).files q g = if q = k.running ∧ g = fd then des else k.files q g := by
  by_cases hq : q = k.running
  · subst hq
    by_cases hg : g = fd
    · subst hg
      simp [Kernel.files, Kernel.setDes, PCB.setDes]
    · simp [Kernel.files, Kernel.setDes, PCB.setDes, hg]
  · simp [Kernel.files, Kernel.setDes, Kernel.onPcb_pcb, hq]

theorem setDes_onlyDes (fd : ℕ) (des : FileDes) (k : Kernel) :
    OnlyDes k.running fd k (k.setDes fd des) := by
  intro q g h
  rw [setDes_files, if_neg (by omega)]

theorem setDes_self (fd : ℕ) (des : FileDes) (k : Kernel) :
    (k.setDes fd des).files k.running fd = des := by
  rw [setDes_files, if_pos ⟨rfl,rfl⟩]

/-- The descriptor with its position moved on. -/
def FileDes.advance (n : ℤ) (des : FileDes) : FileDes :=
  { des with filePosition := i32 (des.filePosition+n) }

@[simp] theorem setDes_des (d : ℕ) (des : FileDes) (k : Kernel) :
    (k.setDes d des).des d = des := setDes_self d des k

/-! ### read and write -/

/-- A read moves the position of the descriptor that it is given, and nothing else. -/
structure MovesOnly (fd : ℤ) (k k' : Kernel) : Prop where
  others : ∀ q (g : ℕ), q ≠ k.running ∨ (g : ℤ) ≠ fd → k'.files q g = k.files q g
  own : ∀ g : ℕ, (g : ℤ) = fd → ∃ position,
    k'.files k.running g = { k.files k.running g with filePosition := position }

theorem movesOnly_of_files {fd : ℤ} {k k' : Kernel} (h : k'.files = k.files) :
    MovesOnly fd k k' := ⟨fun _ _ _ => by rw [h],fun _ _ => ⟨_,by rw [h]⟩⟩

theorem setDes_movesOnly {fd : ℤ} (hfd : 0 ≤ fd) (k : Kernel) (position : ℤ) :
    MovesOnly fd k (k.setDes fd.toNat { k.des fd.toNat with filePosition := position }) where
  others q g h := by
    rw [setDes_files, if_neg (by omega)]
  own g hg := by
    obtain rfl : g = fd.toNat := by omega
    exact ⟨position,setDes_self ..⟩

theorem fileRead_movesOnly (fs : FileSystem) {fd : ℤ} (hfd : 0 ≤ fd) (null : Bool) (nbytes : ℤ)
    (k : Kernel) : MovesOnly fd k (fileRead fs fd null nbytes k).2 := by
  simp only [fileRead]
  split_ifs
  · exact movesOnly_of_files rfl
  · exact setDes_movesOnly hfd k _
  · exact movesOnly_of_files rfl

theorem directoryRead_movesOnly (fs : FileSystem) {fd : ℤ} (hfd : 0 ≤ fd) (null : Bool)
    (nbytes : ℤ) (cpu : Cpu) (k : Kernel) :
    MovesOnly fd k (directoryRead fs fd null nbytes cpu k).2 := by
  simp only [directoryRead]
  by_cases hargs : fd < fileStart ∨ fd > maxFile ∨ null ∨ nbytes ≤ 0
  · rw [if_pos hargs]
    exact movesOnly_of_files rfl
  rw [if_neg hargs]
  by_cases hend : u32 (k.des fd.toNat).filePosition > u32 fs.dirCount
  · rw [if_pos hend]
    exact movesOnly_of_files rfl
  rw [if_neg hend]
  cases fs.readDentryByIndex (u32 (k.des fd.toNat).filePosition) ⟨cpu.stack⟩ with
  | none => exact movesOnly_of_files rfl
  | some dentry => exact setDes_movesOnly hfd k _

theorem waiting_table (k : Kernel) (waiting : ℕ → Option Wait) :
    ({ k with waiting := waiting } : Kernel).table = k.table := rfl

theorem terminalRead_table (null : Bool) (nbytes : ℤ) (k : Kernel) :
    (terminalRead null nbytes k).2.table = k.table := by
  have hstart := terminalReadStart_terminalsOnly null nbytes k
  unfold terminalRead
  generalize terminalReadStart null nbytes k = r at *
  obtain ⟨limit,k'⟩ := r
  cases limit with
  | none => exact hstart.table
  | some limit =>
    simp only
    split_ifs
    · exact hstart.table
    · exact (terminalReadFinish_terminalsOnly limit k').table.trans hstart.table

theorem readRtc_table {k k' : Kernel} {value : ℤ} (h : readRtc k = some (value,k')) :
    k'.table = k.table := by
  unfold readRtc at h
  split_ifs at h
  cases h
  rfl

theorem read_movesOnly (fs : FileSystem) (fd : ℤ) (null : Bool) (nbytes : ℤ) (cpu : Cpu)
    (k : Kernel) : MovesOnly fd k (read fs fd null nbytes cpu k).2 := by
  unfold read
  split_ifs with hrange habsent
  · exact movesOnly_of_files rfl
  · exact movesOnly_of_files rfl
  · have hfd : 0 ≤ fd := by omega
    cases (k.des fd.toNat).opTable with
    | null => exact movesOnly_of_files rfl
    | rtcOps =>
      cases hread : readRtc k with
      | none => exact movesOnly_of_files rfl
      | some r =>
        obtain ⟨value,k'⟩ := r
        exact movesOnly_of_files (files_of_table (readRtc_table hread))
    | fileOps => exact fileRead_movesOnly fs hfd null nbytes k
    | directoryOps => exact directoryRead_movesOnly fs hfd null nbytes cpu k
    | stdOps => exact movesOnly_of_files (files_of_table (terminalRead_table null nbytes k))

theorem resume_table (k : Kernel) : (resume k).2.table = k.table := by
  simp only [resume]
  cases k.waiting k.running with
  | none => rfl
  | some w =>
    cases w with
    | terminal limit =>
      simp only
      split_ifs
      · rfl
      · exact (waiting_table _ _).trans (terminalReadFinish_terminalsOnly limit k).table
    | rtc =>
      simp only
      cases hread : readRtc k with
      | none => rfl
      | some r =>
        obtain ⟨value,k'⟩ := r
        exact (waiting_table k' _).trans (readRtc_table hread)

theorem terminalWrite_table (fd : ℤ) (buf : Option (ℕ → UInt8)) (nbytes : ℤ) (k : Kernel) :
    (terminalWrite fd buf nbytes k).2.table = k.table := by
  cases buf with
  | none => rfl
  | some buf =>
    simp only [terminalWrite]
    split_ifs
    · rfl
    · exact (ScreenOnly.foldl (fun k i => termPutc_screenOnly (buf i) k.currentTerm k) _ k).table

theorem getargs_table (null : Bool) (nbytes : ℤ) (k : Kernel) :
    (getargs null nbytes k).2.table = k.table := by
  simp only [getargs]
  split_ifs <;> rfl

theorem vidmap_table (screenStart : ℕ) (k : Kernel) :
    (vidmap screenStart k).2.table = k.table := by
  simp only [vidmap]
  split_ifs <;> rfl

theorem write_table (fd : ℤ) (buf : Option (ℕ → UInt8)) (nbytes : ℤ) (k : Kernel) :
    (write fd buf nbytes k).2.table = k.table := by
  unfold write
  split_ifs
  · rfl
  · rfl
  · cases (k.des fd.toNat).opTable with
    | rtcOps => exact (writeRtc_clockOnly buf nbytes k).table
    | stdOps => exact terminalWrite_table fd buf nbytes k
    | _ => rfl

/-! ### open and close -/

/-- The operation table of a directory entry's file type. -/
def openTable (filetype : ℤ) : OpTable :=
  if filetype = 0 then .rtcOps else if filetype = 1 then .directoryOps else .fileOps

/-- Whether open(name) has something to open and somewhere to put it. -/
def Openable (fs : FileSystem) (filename : Option (List UInt8)) (k : Kernel) : Prop :=
  (∃ d, fs.readDentryByName filename = some d ∧
    (d.filetype = 0 ∨ d.filetype = 1 ∨ d.filetype = 2)) ∧
  ∃ fd, fileStart ≤ fd ∧ fd < maxFile ∧ (k.files k.running fd).flags = 0

/-- What a descriptor holds when a directory entry has just been opened through it. -/
structure OpenedAs (d : Dentry) (des : FileDes) : Prop where
  present : des.flags = 1
  position : des.filePosition = 0
  opTable : des.opTable = openTable d.filetype
  inode : d.filetype = 2 → des.inode = d.inodeNum

theorem openedDes_spec {d : Dentry} {des des' : FileDes} (h : openedDes d des = some des') :
    OpenedAs d des' := by
  unfold openedDes at h
  split_ifs at h with h₀ h₁ h₂
  · cases h
    exact ⟨rfl,rfl,by simp [openTable, h₀],fun h₂ => absurd (h₀.symm.trans h₂) (by decide)⟩
  · cases h
    exact ⟨rfl,rfl,by simp [openTable, h₁],fun h₂ => absurd (h₁.symm.trans h₂) (by decide)⟩
  · cases h
    exact ⟨rfl,rfl,by simp [openTable, h₂],by simp⟩

theorem openedDes_eq_none {d : Dentry} {des : FileDes} :
    openedDes d des = none ↔ ¬(d.filetype = 0 ∨ d.filetype = 1 ∨ d.filetype = 2) := by
  unfold openedDes
  split_ifs <;> simp [*]

theorem mem_fileRange {fd : ℕ} : fd ∈ [2,3,4,5,6,7] ↔ fileStart ≤ fd ∧ fd < maxFile := by
  simp [fileStart, maxFile]
  omega

theorem freeDes_eq_none {k : Kernel} : k.freeDes = none ↔
    ¬∃ fd, fileStart ≤ fd ∧ fd < maxFile ∧ (k.files k.running fd).flags = 0 := by
  unfold Kernel.freeDes
  rw [List.find?_eq_none]
  constructor
  · rintro h ⟨fd,h₂,h₈,hfree⟩
    exact h fd (mem_fileRange.mpr ⟨h₂,h₈⟩) (decide_eq_true hfree)
  · intro h fd hfd hfree
    obtain ⟨h₂,h₈⟩ := mem_fileRange.mp hfd
    exact h ⟨fd,h₂,h₈,of_decide_eq_true hfree⟩

/-- The lowest descriptor from `FILE_START` on that the caller has free. -/
structure LowestFree (fd : ℕ) (k : Kernel) : Prop where
  start : fileStart ≤ fd
  limit : fd < maxFile
  free : (k.files k.running fd).flags = 0
  lowest : ∀ g, fileStart ≤ g → g < fd → (k.files k.running g).flags ≠ 0

theorem freeDes_spec {k : Kernel} {fd : ℕ} (h : k.freeDes = some fd) : LowestFree fd k := by
  unfold Kernel.freeDes at h
  obtain ⟨hfree,as,bs,hsplit,hbefore⟩ := List.find?_eq_some_iff_append.mp h
  obtain ⟨h₂,h₈⟩ := mem_fileRange.mp (List.mem_of_find?_eq_some h)
  refine ⟨h₂,h₈,of_decide_eq_true hfree,?_⟩
  intro g hg hlt
  have hmem : g ∈ as ++ fd :: bs := by
    rw [← hsplit]
    exact mem_fileRange.mpr ⟨hg,by omega⟩
  have hsorted : (as ++ fd :: bs).Pairwise (· < ·) := by
    rw [← hsplit]
    decide
  have hgas : g ∈ as := by
    rcases List.mem_append.mp hmem with hgas | hgbs
    · exact hgas
    · have hlater := (List.pairwise_append.mp hsorted).2.1
      rcases List.mem_cons.mp hgbs with rfl | hgbs
      · omega
      · have := List.rel_of_pairwise_cons hlater hgbs
        omega
  have hbusy : ¬(k.des g).flags = 0 := by simpa using hbefore g hgas
  exact hbusy

theorem openAt_some (fd : ℕ) (des : FileDes) (k : Kernel) :
    (openAt fd k (some des)).1 = .done fd [] ∧
      (openAt fd k (some des)).2.files = (k.setDes fd des).files := by
  refine ⟨rfl,?_⟩
  simp only [openAt]
  cases des.opTable with
  | rtcOps => exact files_of_table (openRtc_clockOnly _).table
  | _ => rfl

theorem sysOpen_eq {fs : FileSystem} {filename : Option (List UInt8)} {k : Kernel} {d : Dentry}
    {fd : ℕ} (hd : fs.readDentryByName filename = some d) (hfd : k.freeDes = some fd) :
    sysOpen fs filename k = openAt fd k (openedDes d (k.des fd)) := by
  simp only [sysOpen, hd, hfd]

/-- A successful open takes the lowest free descriptor. -/
theorem sysOpen_success {fs : FileSystem} {filename : Option (List UInt8)} {k : Kernel}
    (h : Openable fs filename k) : ∃ d fd,
      fs.readDentryByName filename = some d ∧ k.freeDes = some fd ∧
      (sysOpen fs filename k).1 = .done fd [] ∧
      OpenedAs d ((sysOpen fs filename k).2.files k.running fd) ∧
      OnlyDes k.running fd k (sysOpen fs filename k).2 := by
  obtain ⟨⟨d,hd,htype⟩,hfree⟩ := h
  obtain ⟨fd,hfd⟩ : ∃ fd, k.freeDes = some fd := by
    cases hfd : k.freeDes with
    | none => exact absurd hfree (freeDes_eq_none.mp hfd)
    | some fd => exact ⟨fd,rfl⟩
  obtain ⟨des,hdes⟩ : ∃ des, openedDes d (k.des fd) = some des := by
    cases hdes : openedDes d (k.des fd) with
    | none => exact absurd htype (openedDes_eq_none.mp hdes)
    | some des => exact ⟨des,rfl⟩
  have hopen : sysOpen fs filename k = openAt fd k (some des) := by
    rw [sysOpen_eq hd hfd, hdes]
  obtain ⟨hreply,hfiles⟩ := openAt_some fd des k
  rw [hopen, hfiles]
  refine ⟨d,fd,hd,hfd,hreply,?_,?_⟩
  · rw [setDes_self]
    exact openedDes_spec hdes
  · intro q g hqg
    rw [hfiles]
    exact setDes_onlyDes fd des k q g hqg

/-- A failing open changes nothing. -/
theorem sysOpen_failure {fs : FileSystem} {filename : Option (List UInt8)} {k : Kernel}
    (h : ¬Openable fs filename k) : sysOpen fs filename k = (.done (-1) [],k) := by
  cases hd : fs.readDentryByName filename with
  | none => simp only [sysOpen, hd]
  | some d =>
    cases hfd : k.freeDes with
    | none => simp only [sysOpen, hd, hfd]
    | some fd =>
      obtain ⟨h₂,h₈,hfree,-⟩ := freeDes_spec hfd
      have hnone : openedDes d (k.des fd) = none := openedDes_eq_none.mpr fun htype =>
        h ⟨⟨d,hd,htype⟩,fd,h₂,h₈,hfree⟩
      rw [sysOpen_eq hd hfd, hnone, openAt]

/-- A descriptor that close(fd) can close. -/
def Closable (fd : ℤ) (k : Kernel) : Prop :=
  fileStart ≤ fd ∧ fd < maxFile ∧ (k.files k.running fd.toNat).flags ≠ 0

theorem close_success {fd : ℤ} {k : Kernel} (h : Closable fd k) :
    close fd k = (.done 0 [],k.setDes fd.toNat { k.des fd.toNat with flags := 0 }) := by
  obtain ⟨h₂,h₈,hpresent⟩ := h
  have hrange : ¬(fd < fileStart ∨ fd ≥ maxFile) := by omega
  have hflags : ¬(k.des fd.toNat).flags = 0 := hpresent
  simp only [close, if_neg hrange, if_neg hflags]

theorem close_failure {fd : ℤ} {k : Kernel} (h : ¬Closable fd k) :
    close fd k = (.done (-1) [],k) := by
  by_cases hrange : fd < fileStart ∨ fd ≥ maxFile
  · simp only [close, if_pos hrange]
  · have hflags : (k.des fd.toNat).flags = 0 := by
      by_contra hpresent
      exact h ⟨by omega,by omega,hpresent⟩
    simp only [close, if_neg hrange, if_pos hflags]

end GameOfThreads
