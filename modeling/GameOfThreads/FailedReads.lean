import GameOfThreads.DescriptorTable
import GameOfThreads.ReadData

/-! Failing file reads. file_read adds whatever read_data answers to the file position, the
error value included; a read that its own checks refuse adds nothing. Reads that keep their
place deliver consecutive bytes of the file. -/
namespace GameOfThreads
open Machine

/-- The checks of file_read itself. -/
def FileReadRefused (fd : ℤ) (null : Bool) (nbytes : ℤ) (k : Kernel) : Prop :=
  nbytes < 0 ∨ null ∨ fd < fileStart ∨ fd ≥ maxFile ∨ (k.des fd.toNat).flags ≠ 1

/-- The call is refused by file_read itself, or read_data does not fail on it. -/
def KeepsPlace (fs : FileSystem) (fd : ℤ) (null : Bool) (nbytes : ℤ) (k : Kernel) : Prop :=
  FileReadRefused fd null nbytes k ∨
    ¬fs.Fails (u32 (k.des fd.toNat).inode) (u32 (k.des fd.toNat).filePosition) (u32 nbytes)

/-- Calls of file_read on one descriptor, with what the caller gets. -/
def fileReads (fs : FileSystem) (fd : ℤ) : System Kernel (Bool × ℤ) (ℤ × List UInt8) where
  step k call := fileRead fs fd call.1 call.2 k

/-- All bytes stored on a run. -/
def delivered (h : List (Move Kernel (Bool × ℤ) (ℤ × List UInt8))) : List UInt8 :=
  h.flatMap fun m => m.out.2

variable {fs : FileSystem} {fd : ℤ} {null : Bool} {nbytes : ℤ} {k : Kernel}

/-- What read_data answers to a read through the descriptor. -/
def Kernel.fileData (fs : FileSystem) (fd : ℕ) (nbytes : ℤ) (k : Kernel) : ℤ × List UInt8 :=
  fs.readData (u32 (k.des fd).inode) (u32 (k.des fd).filePosition) false (u32 nbytes)

theorem fileRead_of_refused (h : FileReadRefused fd null nbytes k) :
    fileRead fs fd null nbytes k = ((-1,[]),k) := by
  unfold FileReadRefused at h
  unfold fileRead
  by_cases hargs : nbytes < 0 ∨ null ∨ fd < fileStart ∨ fd ≥ maxFile
  · rw [if_pos hargs]
  · rw [if_neg hargs]
    have hflags : (k.des fd.toNat).flags ≠ 1 := by tauto
    simp only [if_neg hflags]

theorem fileRead_of_accepted (h : ¬FileReadRefused fd null nbytes k) :
    fileRead fs fd null nbytes k =
      (k.fileData fs fd.toNat nbytes,k.setDes fd.toNat
        ((k.des fd.toNat).advance (k.fileData fs fd.toNat nbytes).1)) := by
  simp only [FileReadRefused, not_or, not_not, Bool.not_eq_true] at h
  obtain ⟨hnbytes,rfl,hlow,hhigh,hflags⟩ := h
  simp [fileRead, hnbytes, hlow, hhigh, hflags, Kernel.fileData, FileDes.advance]

/-- A step of minus one always moves a 32-bit position. -/
theorem i32_pred_ne (z : ℤ) : i32 (z+-1) ≠ z := by
  unfold i32
  split_ifs <;> omega

/-- A call keeps the place when it fails exactly if it is refused before read_data or
read_data does not fail. -/
theorem fileRead_place_iff (fs : FileSystem) (fd : ℤ) (null : Bool) (nbytes : ℤ) (k : Kernel) :
    ((fileRead fs fd null nbytes k).1.1 = -1 →
      ((fileRead fs fd null nbytes k).2.des fd.toNat).filePosition =
        (k.des fd.toNat).filePosition) ↔ KeepsPlace fs fd null nbytes k := by
  by_cases h : FileReadRefused fd null nbytes k
  · simp [fileRead_of_refused h, KeepsPlace, h]
  simp only [KeepsPlace, h, false_or, ← FileSystem.fails_iff (u32_lt nbytes)]
  rw [fileRead_of_accepted h]
  constructor
  · intro hkeep hvalue
    have hmoved := hkeep hvalue
    rw [Kernel.fileData, hvalue, setDes_des] at hmoved
    exact i32_pred_ne _ hmoved
  · intro hvalue hfail
    exact absurd hfail hvalue

/-! ### Runs of reads -/

/-- The descriptor has moved on by `n` bytes of its file, all of them delivered. -/
structure Passed (fs : FileSystem) (des : FileDes) (n : ℕ) (bytes : List UInt8) (des' : FileDes) :
    Prop where
  inode : des'.inode = des.inode
  flags : des'.flags = des.flags
  position : u32 des'.filePosition = FileSystem.positionAt (u32 des.filePosition) n
  bytes : bytes = fs.bytesFrom (u32 des.inode) (u32 des.filePosition) n

theorem Passed.refl (fs : FileSystem) (des : FileDes) : Passed fs des 0 [] des where
  inode := rfl
  flags := rfl
  position := (FileSystem.positionAt_zero (u32_lt _)).symm
  bytes := rfl

theorem positionAt_positionAt (offset m n : ℕ) :
    FileSystem.positionAt (FileSystem.positionAt offset m) n =
      FileSystem.positionAt offset (m+n) := by
  unfold FileSystem.positionAt
  omega

theorem Passed.trans {des des' des'' : FileDes} {m n : ℕ} {bs cs : List UInt8}
    (h : Passed fs des m bs des') (h' : Passed fs des' n cs des'') :
    Passed fs des (m+n) (bs++cs) des'' where
  inode := h'.inode.trans h.inode
  flags := h'.flags.trans h.flags
  position := by rw [h'.position, h.position, positionAt_positionAt]
  bytes := by
    rw [h.bytes, h'.bytes, h.inode, h.position]
    simp only [FileSystem.bytesFrom, List.range_add, List.map_append, List.map_map]
    congr 2
    funext i
    simp [positionAt_positionAt]

theorem advance_position (n : ℕ) (des : FileDes) :
    u32 (des.advance n).filePosition = FileSystem.positionAt (u32 des.filePosition) n := by
  simp only [FileDes.advance, u32_i32]
  unfold u32 FileSystem.positionAt
  omega

/-- A call that keeps its place moves on by the bytes that it delivers. -/
theorem fileRead_passed (hn : nbytes < 2147483648) (h : KeepsPlace fs fd null nbytes k) :
    ∃ n, Passed fs (k.des fd.toNat) n (fileRead fs fd null nbytes k).1.2
      ((fileRead fs fd null nbytes k).2.des fd.toNat) := by
  by_cases hrefused : FileReadRefused fd null nbytes k
  · rw [fileRead_of_refused hrefused]
    exact ⟨0,Passed.refl fs _⟩
  have hfails : ¬fs.Fails _ _ _ := h.resolve_left hrefused
  have hlength : u32 nbytes < 2147483648 := by
    simp only [FileReadRefused, not_or] at hrefused
    unfold u32
    omega
  obtain ⟨n,hread⟩ := FileSystem.readData_of_not_fails hlength hfails
  rw [fileRead_of_accepted hrefused, Kernel.fileData, hread, setDes_des]
  exact ⟨n,rfl,rfl,advance_position n _,rfl⟩

/-- A call that fails and keeps its place was refused at once. -/
theorem fileRead_eq_of_failed (hvalue : (fileRead fs fd null nbytes k).1.1 = -1)
    (h : KeepsPlace fs fd null nbytes k) : (fileRead fs fd null nbytes k).2 = k := by
  by_cases hrefused : FileReadRefused fd null nbytes k
  · rw [fileRead_of_refused hrefused]
  rw [fileRead_of_accepted hrefused] at hvalue
  exact absurd ((FileSystem.fails_iff (u32_lt nbytes)).mp hvalue) (h.resolve_left hrefused)

/-- The condition for a run of calls: a 32-bit size, and a place that is kept. -/
def CallKeepsPlace (fs : FileSystem) (fd : ℤ) (k : Kernel) (call : Bool × ℤ) : Prop :=
  call.2 < 2147483648 ∧ KeepsPlace fs fd call.1 call.2 k

theorem fileReads_passed {calls : List (Bool × ℤ)}
    (h : (fileReads fs fd).Along (CallKeepsPlace fs fd) k calls) :
    ∃ n, Passed fs (k.des fd.toNat) n (delivered ((fileReads fs fd).trace k calls))
      (((fileReads fs fd).run k calls).des fd.toNat) := by
  induction calls generalizing k with
  | nil => exact ⟨0,Passed.refl fs _⟩
  | cons call calls ih =>
    obtain ⟨⟨hn,hkeep⟩,hrest⟩ := h
    obtain ⟨m,hstep⟩ := fileRead_passed hn hkeep
    obtain ⟨n,hrun⟩ := ih hrest
    exact ⟨m+n,hstep.trans hrun⟩

theorem fileReads_failed {calls : List (Bool × ℤ)}
    (h : (fileReads fs fd).Along (CallKeepsPlace fs fd) k calls)
    (hfailed : ∀ m ∈ (fileReads fs fd).trace k calls, m.out.1 = -1) :
    (fileReads fs fd).run k calls = k := by
  induction calls generalizing k with
  | nil => rfl
  | cons call calls ih =>
    have hvalue : ((fileReads fs fd).move k call).out.1 = -1 :=
      hfailed _ (List.mem_cons_self ..)
    have hstep : (fileReads fs fd).next k call = k := fileRead_eq_of_failed hvalue h.1.2
    have hrest := h.2
    rw [System.trace, hstep] at hfailed
    rw [hstep] at hrest
    rw [System.run_cons, hstep]
    exact ih hrest fun m hm => hfailed m (List.mem_cons_of_mem _ hm)

/-- A read leaves the position of its descriptor when it fails exactly if it keeps its place.
On a run of such reads the bytes delivered are those of consecutive positions, and after
failed ones the state is what it was. -/
theorem failed_reads_keep_place (fs : FileSystem) (fd : ℤ) (k : Kernel) :
    (∀ null nbytes, ((fileRead fs fd null nbytes k).1.1 = -1 →
      ((fileRead fs fd null nbytes k).2.des fd.toNat).filePosition =
        (k.des fd.toNat).filePosition) ↔ KeepsPlace fs fd null nbytes k) ∧
    ∀ calls, (fileReads fs fd).Along (CallKeepsPlace fs fd) k calls →
      (∃ n, Passed fs (k.des fd.toNat) n (delivered ((fileReads fs fd).trace k calls))
        (((fileReads fs fd).run k calls).des fd.toNat)) ∧
      ((∀ m ∈ (fileReads fs fd).trace k calls, m.out.1 = -1) →
        (fileReads fs fd).run k calls = k) := by
  constructor
  · intro null nbytes
    exact fileRead_place_iff fs fd null nbytes k
  · intro calls h
    exact ⟨fileReads_passed h,fileReads_failed h⟩

/-- A file of 4100 bytes whose second block number is out of range. -/
def tornImage : FileSystem where
  mem a :=
    if a = 4 ∨ a = 8 then 1
    else if a = 4096 then 4
    else if a = 4097 then 16
    else if a = 4104 then 9
    else if a = 12287 then 7
    else 0
  modStart := 0

/-- The file is open on descriptor 2 and its first block has been read. -/
def tornKernel : Kernel :=
  staticStorage (fun _ =>
    { fileDesArray := fun _ => ⟨.fileOps,0,4096,1⟩
      pidNum := 0, thisEsp := 0, thisEbp := 0, haltStat := 0, parentPidNum := 0, parEsp := 0
      parEbp := 0, args := fun _ => 0 }) fun _ => 0

/-- The read of the second block fails and moves back to the last byte of the first one,
which the next read delivers. -/
theorem tornKernel_moves_back :
    (fileRead tornImage 2 false 4 tornKernel).1 = (-1,[]) ∧
      ((fileRead tornImage 2 false 4 tornKernel).2.des 2).filePosition = 4095 ∧
      (fileRead tornImage 2 false 1 (fileRead tornImage 2 false 4 tornKernel).2).1 = (1,[7]) ∧
      ¬((fileRead tornImage 2 false 4 tornKernel).1.1 = -1 →
        ((fileRead tornImage 2 false 4 tornKernel).2.des 2).filePosition =
          (tornKernel.des 2).filePosition) := by
  decide +kernel

theorem failed_reads_keep_place_torn :
    (fileReads tornImage 2).run tornKernel [(true,4),(false,-1)] = tornKernel := by
  have halong : (fileReads tornImage 2).Along (CallKeepsPlace tornImage 2) tornKernel
      [(true,4),(false,-1)] := by
    refine ⟨⟨by decide,Or.inl ?_⟩,⟨by decide,Or.inl ?_⟩,trivial⟩
    · exact Or.inr (Or.inl rfl)
    · exact Or.inl (by decide)
  apply ((failed_reads_keep_place tornImage 2 tornKernel).2 _ halong).2
  decide +kernel

end GameOfThreads
