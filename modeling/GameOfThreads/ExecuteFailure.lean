import GameOfThreads.ProcessRuns

/-! A failing execute. The PID is claimed first and each later exit has its own way out, so
whether the caller finds the process table as it was depends on which exit was taken. -/
namespace GameOfThreads
open Machine

/-- What a call that starts nothing should leave alone: the account of the processes, their
descriptor tables and the user page. -/
structure AccountKept (k k' : Kernel) : Prop where
  inUse : k'.pcbInUse = k.pcbInUse
  count : k'.processCnt = k.processCnt
  progs : k'.totalProgs = k.totalProgs
  process : ∀ t, (k'.terminal t).process = (k.terminal t).process
  descriptors : ∀ p, (k'.pcb p).fileDesArray = (k.pcb p).fileDesArray
  userPage : k'.pageDirUser = k.pageDirUser

/-- The command names a program that passes every check of the header and then cannot be
read to its end. -/
def BreaksOff (fs : FileSystem) (stack : ℕ → UInt8) (command : Option (List UInt8)) : Prop :=
  ∃ filename args d, parseArgs command = some (filename,args) ∧
    filename.length < comBufSize ∧ args.length < comBufSize ∧
    fs.readDentryByName (some filename) = some d ∧ d.filetype = 2 ∧
    (fs.readData (u32 d.inodeNum) 0 false headerSize).1 ≠ -1 ∧
    isElf (overlay stack 0 (fs.readData (u32 d.inodeNum) 0 false headerSize).2) = true ∧
    (fs.readData (u32 d.inodeNum) 0 false fourMB).1 = -1

theorem imageVerdict_ne_null (image : ℤ × List UInt8) (args : List UInt8) (entry : ℕ) :
    imageVerdict image args entry ≠ .null := by
  unfold imageVerdict
  split_ifs <;> nofun

/-- Only a missing command gets the verdict of one. -/
theorem verdict_null {fs : FileSystem} {stack : ℕ → UInt8} {command : Option (List UInt8)}
    (h : fs.verdict stack command = .null) : command = none := by
  cases command with
  | none => rfl
  | some command =>
    simp only [FileSystem.verdict, Option.isNone_some, Bool.false_eq_true, if_false] at h
    cases hparse : parseArgs (some command) with
    | none => simp [hparse] at h
    | some words =>
      obtain ⟨filename,args⟩ := words
      simp only [hparse] at h
      split_ifs at h with hfit
      cases hd : fs.readDentryByName (some filename) with
      | none => simp [hd] at h
      | some d =>
        simp only [hd] at h
        split_ifs at h with htype
        simp only [FileSystem.fileVerdict] at h
        split_ifs at h with hheader helf
        exact (imageVerdict_ne_null _ _ _ h).elim

theorem verdict_broken_iff {fs : FileSystem} {stack : ℕ → UInt8}
    {command : Option (List UInt8)} :
    (∃ bytes, fs.verdict stack command = .broken bytes) ↔ BreaksOff fs stack command := by
  constructor
  · rintro ⟨bytes,hv⟩
    unfold FileSystem.verdict at hv
    split_ifs at hv with hnull
    cases hparse : parseArgs command with
    | none => simp [hparse] at hv
    | some words =>
      obtain ⟨filename,args⟩ := words
      simp only [hparse] at hv
      split_ifs at hv with hfit
      cases hd : fs.readDentryByName (some filename) with
      | none => simp [hd] at hv
      | some d =>
        simp only [hd] at hv
        split_ifs at hv with htype
        simp only [FileSystem.fileVerdict] at hv
        split_ifs at hv with hheader helf
        unfold imageVerdict at hv
        split_ifs at hv with himage
        exact ⟨filename,args,d,hparse,by omega,by omega,hd,by omega,hheader,
          by simpa using helf,himage⟩
  · rintro ⟨filename,args,d,hparse,hfilename,hargs,hd,htype,hheader,helf,himage⟩
    rw [verdict_of_header hparse hfilename hargs hd htype hheader helf, imageVerdict,
      if_pos himage]
    exact ⟨_,rfl⟩

theorem accountKept_of_table {k k' : Kernel} (h : k'.table = k.table) : AccountKept k k' where
  inUse := congrArg Table.pcbInUse h
  count := congrArg Table.processCnt h
  progs := congrArg Table.totalProgs h
  process t := congrFun (congrArg Table.process h) t
  descriptors p := congrArg (fun T : Table => (T.pcb p).fileDesArray) h
  userPage := congrArg Table.pageDirUser h

theorem not_accountKept_of_claim {k k' : Kernel} {pid : ℕ} (hpid : k.table.nextPid = some pid)
    (ht : k'.table = k.table.claim pid) : ¬AccountKept k k' := by
  intro hkept
  have hfree : k.pcbInUse pid = 0 := Table.nextPid_free hpid
  have hclaim := congrFun (congrArg Table.pcbInUse ht) pid
  rw [show k'.table.pcbInUse = k.pcbInUse from hkept.inUse] at hclaim
  simp [Table.claim, hfree] at hclaim

theorem accountKept_of_mapUser_iff {k k' : Kernel} {pid : ℕ} (ht : k'.table = k.table.mapUser pid) :
    AccountKept k k' ↔ k.pageDirUser = userEntry pid := by
  constructor
  · intro hkept
    have huser : k'.pageDirUser = userEntry pid := congrArg Table.pageDirUser ht
    exact hkept.userPage.symm.trans huser
  · intro hsame
    refine accountKept_of_table (ht.trans ?_)
    rw [Table.mapUser, ← hsame]
    rfl

/-- A failing execute leaves everything as it was, with two exceptions: without a command it
keeps the PID that it has claimed, and a program that breaks off leaves the user page on
the PID that it was meant for. -/
theorem execute_failed_atomic_iff (fs : FileSystem) (cpu : Cpu) (command : Option (List UInt8))
    (k : Kernel) (hfailed : (execute fs cpu command k).1 = .failed) :
    AccountKept k (execute fs cpu command k).2 ↔
      ¬(command = none ∧ ∃ pid < maxNumProc, k.pcbInUse pid = 0) ∧
      ¬(BreaksOff fs cpu.stack command ∧
        ∃ pid, k.table.nextPid = some pid ∧ k.pageDirUser ≠ userEntry pid) := by
  rcases execute_cases fs cpu command k with ⟨hnone,-,ht⟩ | ⟨pid,hpid,hcases⟩
  · refine iff_of_true (accountKept_of_table ht) ⟨?_,?_⟩
    · rintro ⟨-,pid,hlt,hfree⟩
      exact Table.nextPid_eq_none.mp hnone pid hlt hfree
    · rintro ⟨-,pid,hpid,-⟩
      rw [hnone] at hpid
      cases hpid
  rcases hcases with ⟨hv,-,ht⟩ | ⟨_,hv,-,ht⟩ | ⟨-,hr,-⟩ | ⟨bytes,hv,-,ht⟩ | ⟨_,_,_,-,hr,-⟩
  · exact iff_of_false (not_accountKept_of_claim hpid ht) fun h => h.1 ⟨verdict_null hv,pid,
      Table.nextPid_lt hpid,Table.nextPid_free hpid⟩
  · refine iff_of_true (accountKept_of_table ht) ⟨?_,?_⟩
    · rintro ⟨rfl,-⟩
      cases hv
    · rintro ⟨hbreaks,-⟩
      obtain ⟨bytes,hb⟩ := verdict_broken_iff.mpr hbreaks
      rw [hv] at hb
      cases hb
  · rw [hr] at hfailed
    cases hfailed
  · have hnot : ¬(command = none ∧ ∃ pid < maxNumProc, k.pcbInUse pid = 0) := by
      rintro ⟨rfl,-⟩
      cases hv
    rw [accountKept_of_mapUser_iff ht]
    constructor
    · intro hsame
      refine ⟨hnot,?_⟩
      rintro ⟨-,pid',hpid',hne⟩
      rw [hpid] at hpid'
      cases hpid'
      exact hne hsame
    · rintro ⟨-,hkeep⟩
      by_contra hne
      exact hkeep ⟨verdict_broken_iff.mp ⟨bytes,hv⟩,pid,hpid,hne⟩
  · rw [hr] at hfailed
    cases hfailed

theorem shellImage_cat (stack : ℕ → UInt8) :
    shellImage.verdict stack (some (text "cat")) =
      .refused (text "\nError: File not found \n") := by
  have hfind : (List.range numDir).find? (fun i =>
      strncmp (shellImage.directory i).filename (cstring (text "cat")) nameLen = 0) = none := by
    decide +kernel
  have hparse : parseArgs (some (text "cat")) = some (text "cat",[]) := by decide
  have hname : ¬(i32 (strlen (text "cat")) > nameLen ∨ i32 (strlen (text "cat")) = 0) := by
    decide +kernel
  have hlookup : shellImage.readDentryByName (some (text "cat")) = none := by
    simp only [FileSystem.readDentryByName, if_neg hname, hfind, Option.map_none]
  have hfit : ¬((text "cat").length ≥ comBufSize ∨ ([] : List UInt8).length ≥ comBufSize) := by
    decide
  simp only [FileSystem.verdict, Option.isNone_some, hparse, if_neg hfit, hlookup]
  rfl

/-- A command that names no file, in the state after boot. -/
theorem execute_failed_atomic_cat : AccountKept
    (booted shellImage (fun _ => PCB.zero) (fun _ => 0) ⟨0,0,fun _ => 0⟩)
    (execute shellImage ⟨0,0,fun _ => 0⟩ (some (text "cat"))
      (booted shellImage (fun _ => PCB.zero) (fun _ => 0) ⟨0,0,fun _ => 0⟩)).2 := by
  have hpid : (booted shellImage (fun _ => PCB.zero) (fun _ => 0)
      ⟨0,0,fun _ => 0⟩).table.nextPid = some 1 := by
    rw [booted_table shellImage_loadable]
    rfl
  have hbreaks : ¬BreaksOff shellImage (fun _ => 0) (some (text "cat")) := by
    rw [← verdict_broken_iff, shellImage_cat]
    nofun
  refine (execute_failed_atomic_iff _ _ _ _ ?_).mpr ⟨nofun,fun h => hbreaks h.1⟩
  rw [execute_eq, hpid]
  simp only [shellImage_cat]
  rfl

/-- execute(NULL) after boot fails and keeps PID 1. -/
theorem execute_null_leaks :
    (execute shellImage ⟨0,0,fun _ => 0⟩ none
      (booted shellImage (fun _ => PCB.zero) (fun _ => 0) ⟨0,0,fun _ => 0⟩)).1 = .failed ∧
    ¬AccountKept (booted shellImage (fun _ => PCB.zero) (fun _ => 0) ⟨0,0,fun _ => 0⟩)
      (execute shellImage ⟨0,0,fun _ => 0⟩ none
        (booted shellImage (fun _ => PCB.zero) (fun _ => 0) ⟨0,0,fun _ => 0⟩)).2 := by
  have hboot := booted_table shellImage_loadable (fun _ => PCB.zero) (fun _ => 0) ⟨0,0,fun _ => 0⟩
  generalize booted shellImage (fun _ => PCB.zero) (fun _ => 0) ⟨0,0,fun _ => 0⟩ = k at *
  have hpid : k.table.nextPid = some 1 := by
    rw [hboot]
    rfl
  have hfree : k.pcbInUse 1 = 0 := Table.nextPid_free hpid
  rw [execute_eq, hpid]
  refine ⟨rfl,?_⟩
  intro hkept
  have hclaim : 1 = k.pcbInUse 1 := congrFun hkept.inUse 1
  omega

end GameOfThreads
