import GameOfThreads.FileReading
import GameOfThreads.ReadData

/-! Program files. The header check of execute looks at a local buffer that a short file
does not fill, and the load puts the whole file into the user page from its load address
on: when the decision depends on the file alone, and when the load stays in the page. -/
namespace GameOfThreads
open Machine

namespace FileSystem
variable (fs : FileSystem)

/-- The directory entry that a command names. -/
def program (command : Option (List UInt8)) : Option Dentry :=
  (parseArgs command).bind fun words => fs.readDentryByName (some words.1)

/-- The command names a regular file, in words that fit their buffers. -/
def Selects (command : Option (List UInt8)) (args : List UInt8) (d : Dentry) : Prop :=
  ∃ filename, parseArgs command = some (filename,args) ∧ filename.length < comBufSize ∧
    args.length < comBufSize ∧ fs.readDentryByName (some filename) = some d ∧ d.filetype = 2

/-- The header buffer after the first bytes of a file have been read into it. -/
def header (inode : ℕ) (stack : ℕ → UInt8) : ℕ → UInt8 := fun i =>
  if i < min headerSize (u32 (fs.inodeLength inode)) then fs.fileByte inode i else stack i

end FileSystem

/-- The four bytes at the start of a program. -/
def magic : List UInt8 := [0x7F,0x45,0x4C,0x46]

/-- What execute should do: it decides by the file, and what it takes for a program has a
whole header, the magic number and its entry point in it. -/
structure DecidesByFile (fs : FileSystem) (command : Option (List UInt8)) (k : Kernel) : Prop where
  same : ∀ (cpu : Cpu) (stack : ℕ → UInt8),
    (execute fs { cpu with stack := stack } command k).1 = (execute fs cpu command k).1
  valid : ∀ (cpu : Cpu) (pid entry : ℕ), (execute fs cpu command k).1 = .started pid entry →
    ∃ d, fs.program command = some d ∧ 28 ≤ fs.inodeLength (u32 d.inodeNum) ∧
      (∀ i < 4, fs.fileByte (u32 d.inodeNum) i = magic.getD i 0) ∧
      entry = word (fs.fileByte (u32 d.inodeNum)) 24

/-- A PID is free and the command names a file of a recorded length below 28 that can be
read and, as far as it goes, starts like a program. -/
def ShortProgram (fs : FileSystem) (command : Option (List UInt8)) (k : Kernel) : Prop :=
  (∃ pid < maxNumProc, k.pcbInUse pid = 0) ∧ ∃ args d, fs.Selects command args d ∧
    fs.inodeLength (u32 d.inodeNum) < 28 ∧ ¬fs.Fails (u32 d.inodeNum) 0 fourMB ∧
    ∀ i : ℕ, i < 4 →
      (fs.inodeLength (u32 d.inodeNum) < 0 ∨ (i : ℤ) < fs.inodeLength (u32 d.inodeNum)) →
        fs.fileByte (u32 d.inodeNum) i = magic.getD i 0

def Verdict.result (pid : ℕ) : Verdict → ExecResult
  | .accepted _ entry _ => .started pid entry
  | .overrun => .overrun
  | _ => .failed

theorem Verdict.carryOut_result (cpu : Cpu) (pid : ℕ) (k : Kernel) (v : Verdict) :
    (v.carryOut cpu pid k).1 = v.result pid := by
  cases v with
  | _ => rfl

variable {fs : FileSystem} {command : Option (List UInt8)} {k : Kernel} {cpu : Cpu}

theorem execute_result_none (h : k.table.nextPid = none) :
    (execute fs cpu command k).1 = .failed := by
  simp only [execute_eq, h]

theorem execute_result_some {pid : ℕ} (h : k.table.nextPid = some pid) :
    (execute fs cpu command k).1 = (fs.verdict cpu.stack command).result pid := by
  simp only [execute_eq, h, Verdict.carryOut_result]

/-- A command gets its verdict before the header is read, or by the file that it names. -/
theorem verdict_cases (fs : FileSystem) (command : Option (List UInt8)) :
    (∃ v : Verdict, (∀ pid, v.result pid = .failed ∨ v.result pid = .overrun) ∧
      ∀ stack, fs.verdict stack command = v) ∨
    ∃ args d, fs.Selects command args d := by
  unfold FileSystem.verdict
  by_cases hnull : command.isNone
  · exact Or.inl ⟨.null,fun _ => Or.inl rfl,fun _ => if_pos hnull⟩
  simp only [if_neg hnull]
  cases hparse : parseArgs command with
  | none => exact Or.inl ⟨_,fun _ => Or.inl rfl,fun _ => rfl⟩
  | some words =>
    obtain ⟨filename,args⟩ := words
    simp only
    by_cases hlong : filename.length ≥ comBufSize ∨ args.length ≥ comBufSize
    · exact Or.inl ⟨.overrun,fun _ => Or.inr rfl,fun _ => if_pos hlong⟩
    simp only [if_neg hlong]
    cases hd : fs.readDentryByName (some filename) with
    | none => exact Or.inl ⟨_,fun _ => Or.inl rfl,fun _ => rfl⟩
    | some d =>
      simp only
      by_cases htype : d.filetype = 2
      · exact Or.inr ⟨args,d,filename,hparse,by omega,by omega,hd,htype⟩
      · exact Or.inl ⟨_,fun _ => Or.inl rfl,fun _ => if_pos htype⟩

namespace FileSystem

theorem Selects.program {args : List UInt8} {d : Dentry} (h : fs.Selects command args d) :
    fs.program command = some d := by
  obtain ⟨filename,hparse,-,-,hd,-⟩ := h
  unfold FileSystem.program
  rw [hparse]
  rw [Option.bind_some]
  exact hd

theorem Selects.verdict {args : List UInt8} {d : Dentry} (h : fs.Selects command args d)
    (stack : ℕ → UInt8) :
    fs.verdict stack command = fs.fileVerdict stack (u32 d.inodeNum) args := by
  obtain ⟨filename,hparse,hfilename,hargs,hd,htype⟩ := h
  have hsome := isSome_of_parse hparse
  have hfit : ¬(filename.length ≥ comBufSize ∨ args.length ≥ comBufSize) := by omega
  unfold FileSystem.verdict
  rw [if_neg (by simp [hsome])]
  simp only [hparse, if_neg hfit, hd]
  exact if_neg (not_not.mpr htype)

/-! ### The decision on a file -/

section
variable {inode : ℕ} {stack : ℕ → UInt8}

theorem header_eq (h : ¬fs.Fails inode 0 headerSize) :
    overlay stack 0 (fs.readData inode 0 false headerSize).2 = fs.header inode stack := by
  rw [readData_from_start (by decide) h]
  funext i
  by_cases hi : i < min headerSize (u32 (fs.inodeLength inode))
  · simp [overlay, header, hi]
  · simp [overlay, header, hi]

theorem header_of_lt {i : ℕ} (hi : i < headerSize) (hlength : i < u32 (fs.inodeLength inode)) :
    fs.header inode stack i = fs.fileByte inode i := if_pos (by omega)

theorem not_fails_header (h : ¬fs.Fails inode 0 fourMB) : ¬fs.Fails inode 0 headerSize :=
  fun hfails => h (hfails.mono (by decide) (by decide) (by decide))

/-- A file is taken for a program when its header looks like one and it can be read. -/
theorem fileVerdict_accepts (args : List UInt8) (pid : ℕ) (hload : ¬fs.Fails inode 0 fourMB)
    (helf : isElf (fs.header inode stack) = true) :
    (fs.fileVerdict stack inode args).result pid =
      .started pid (word (fs.header inode stack) 24) := by
  have hheader := not_fails_header hload
  have hvalue : (fs.readData inode 0 false headerSize).1 ≠ -1 :=
    mt (fails_iff (by decide)).mp hheader
  have himage : (fs.readData inode 0 false fourMB).1 ≠ -1 := mt (fails_iff (by decide)).mp hload
  unfold fileVerdict imageVerdict
  dsimp only
  rw [if_neg hvalue, header_eq hheader, helf, if_neg (by simp), if_neg himage]
  rfl

theorem fileVerdict_rejects (args : List UInt8) (pid : ℕ)
    (h : fs.Fails inode 0 fourMB ∨ isElf (fs.header inode stack) = false) :
    (fs.fileVerdict stack inode args).result pid = .failed := by
  by_cases hheader : fs.Fails inode 0 headerSize
  · have hvalue := (fails_iff (by decide)).mpr hheader
    unfold fileVerdict
    dsimp only
    rw [if_pos hvalue]
    rfl
  have hvalue : (fs.readData inode 0 false headerSize).1 ≠ -1 :=
    mt (fails_iff (by decide)).mp hheader
  by_cases helf : isElf (fs.header inode stack) = true
  · have hload : fs.Fails inode 0 fourMB := h.resolve_right (by simp [helf])
    have himage := (fails_iff (by decide)).mpr hload
    unfold fileVerdict imageVerdict
    dsimp only
    rw [if_neg hvalue, header_eq hheader, helf, if_neg (by simp), if_pos himage]
    rfl
  · unfold fileVerdict
    dsimp only
    rw [if_neg hvalue, header_eq hheader, if_pos (by simpa using helf)]
    rfl

theorem word_congr {f g : ℕ → UInt8} {a : ℕ} (h : ∀ i < a+4, f i = g i) :
    word f a = word g a := by
  unfold word
  rw [h a (by omega), h (a+1) (by omega), h (a+2) (by omega), h (a+3) (by omega)]

theorem isElf_iff {f : ℕ → UInt8} : isElf f = true ↔ ∀ i < 4, f i = magic.getD i 0 := by
  constructor
  · intro h i hi
    simp only [isElf, decide_eq_true_eq] at h
    obtain ⟨h₀,h₁,h₂,h₃⟩ := h
    interval_cases i
    · exact h₀
    · exact h₁
    · exact h₂
    · exact h₃
  · intro h
    simp only [isElf, decide_eq_true_eq]
    exact ⟨h 0 (by decide),h 1 (by decide),h 2 (by decide),h 3 (by decide)⟩

/-- A file of 28 bytes fills the part of the header that is looked at. -/
theorem header_filled (h : 28 ≤ fs.inodeLength inode) {i : ℕ} (hi : i < 28) :
    fs.header inode stack i = fs.fileByte inode i := by
  have hlt := fs.inodeLength_lt inode
  apply header_of_lt
  · exact hi.trans (by decide)
  · unfold u32
    omega

/-- A file shorter than that still shows the bytes that it has. -/
theorem header_shows {i : ℕ} (hi : i < 4)
    (hlength : fs.inodeLength inode < 0 ∨ (i : ℤ) < fs.inodeLength inode) :
    fs.header inode stack i = fs.fileByte inode i := by
  have hge := fs.inodeLength_ge inode
  have hlt := fs.inodeLength_lt inode
  apply header_of_lt
  · exact hi.trans (by decide)
  · unfold u32
    omega

theorem header_rest {i : ℕ}
    (h : ¬(fs.inodeLength inode < 0 ∨ (i : ℤ) < fs.inodeLength inode)) :
    fs.header inode stack i = stack i := by
  apply if_neg
  unfold u32
  omega

end
end FileSystem

open FileSystem

theorem nextPid_some_iff : (∃ pid, k.table.nextPid = some pid) ↔
    ∃ pid < maxNumProc, k.pcbInUse pid = 0 := by
  rw [← Option.isSome_iff_exists, Option.isSome_iff_ne_none, Ne, Table.nextPid_eq_none]
  simp [Kernel.table]

/-- A short program is accepted when the buffer holds the magic number already. -/
theorem ShortProgram.not_decidesByFile (h : ShortProgram fs command k) :
    ¬DecidesByFile fs command k := by
  obtain ⟨hfree,args,d,hd,hshort,hload,hmagic⟩ := h
  obtain ⟨pid,hpid⟩ := nextPid_some_iff.mpr hfree
  have helf : isElf (fs.header (u32 d.inodeNum) fun i => magic.getD i 0) = true := by
    rw [isElf_iff]
    intro i hi
    by_cases hlength : fs.inodeLength (u32 d.inodeNum) < 0 ∨
        (i : ℤ) < fs.inodeLength (u32 d.inodeNum)
    · rw [header_shows hi hlength, hmagic i hi hlength]
    · exact header_rest hlength
  have hstarted : (execute fs ⟨0,0,fun i => magic.getD i 0⟩ command k).1 =
      .started pid (word (fs.header (u32 d.inodeNum) fun i => magic.getD i 0) 24) := by
    rw [execute_result_some hpid, hd.verdict, fileVerdict_accepts args pid hload helf]
  rintro ⟨-,valid⟩
  obtain ⟨d',hd',hlength,-⟩ := valid _ _ _ hstarted
  obtain rfl : d = d' := Option.some.inj (hd.program.symm.trans hd')
  omega

theorem decidesByFile_of_failed
    (h : ∀ cpu, (execute fs cpu command k).1 = .failed ∨ (execute fs cpu command k).1 = .overrun)
    (hsame : ∀ (cpu : Cpu) (stack : ℕ → UInt8),
      (execute fs { cpu with stack := stack } command k).1 = (execute fs cpu command k).1) :
    DecidesByFile fs command k where
  same := hsame
  valid cpu pid entry hstarted := by
    obtain h | h := h cpu
    · simp [h] at hstarted
    · simp [h] at hstarted

/-- A file that cannot be read to its end, or whose header shows that it is no program, is
turned down whatever the buffer holds. -/
theorem decidesByFile_of_rejects {pid : ℕ} (hpid : k.table.nextPid = some pid) {args : List UInt8}
    {d : Dentry} (hd : fs.Selects command args d)
    (h : ∀ stack, fs.Fails (u32 d.inodeNum) 0 fourMB ∨
      isElf (fs.header (u32 d.inodeNum) stack) = false) : DecidesByFile fs command k := by
  have hfailed : ∀ cpu, (execute fs cpu command k).1 = .failed := by
    intro cpu
    rw [execute_result_some hpid, hd.verdict]
    exact fileVerdict_rejects args pid (h cpu.stack)
  apply decidesByFile_of_failed
  · intro cpu
    exact Or.inl (hfailed cpu)
  · intro cpu stack
    rw [hfailed, hfailed]

/-- A file that fills the part of the header that is looked at is judged by itself. -/
theorem decidesByFile_of_long {pid : ℕ} (hpid : k.table.nextPid = some pid) {args : List UInt8}
    {d : Dentry} (hd : fs.Selects command args d) (hload : ¬fs.Fails (u32 d.inodeNum) 0 fourMB)
    (hlength : 28 ≤ fs.inodeLength (u32 d.inodeNum)) : DecidesByFile fs command k := by
  have helf : ∀ stack, isElf (fs.header (u32 d.inodeNum) stack) =
      isElf (fs.fileByte (u32 d.inodeNum)) := by
    intro stack
    rw [Bool.eq_iff_iff, isElf_iff, isElf_iff]
    apply forall₂_congr
    intro i hi
    rw [header_filled hlength (by omega)]
  have hentry : ∀ stack, word (fs.header (u32 d.inodeNum) stack) 24 =
      word (fs.fileByte (u32 d.inodeNum)) 24 := by
    intro stack
    apply word_congr
    intro i hi
    exact header_filled hlength hi
  by_cases hprogram : isElf (fs.fileByte (u32 d.inodeNum)) = true
  · have hstarted : ∀ cpu, (execute fs cpu command k).1 =
        .started pid (word (fs.fileByte (u32 d.inodeNum)) 24) := by
      intro cpu
      rw [execute_result_some hpid, hd.verdict, ← hentry cpu.stack]
      apply fileVerdict_accepts args pid hload
      rw [helf, hprogram]
    constructor
    · intro cpu stack
      rw [hstarted, hstarted]
    · intro cpu p entry h
      rw [hstarted] at h
      obtain ⟨rfl,rfl⟩ := ExecResult.started.inj h
      exact ⟨d,hd.program,hlength,isElf_iff.mp hprogram,rfl⟩
  · apply decidesByFile_of_rejects hpid hd
    intro stack
    rw [helf]
    exact Or.inr (by simpa using hprogram)

/-- execute decides by the file exactly when it has no short program in front of it. -/
theorem execute_decides_iff (fs : FileSystem) (command : Option (List UInt8)) (k : Kernel) :
    DecidesByFile fs command k ↔ ¬ShortProgram fs command k := by
  constructor
  · intro h hshort
    exact hshort.not_decidesByFile h
  intro h
  cases hpid : k.table.nextPid with
  | none =>
    have hfailed : ∀ cpu, (execute fs cpu command k).1 = .failed := fun cpu =>
      execute_result_none hpid
    apply decidesByFile_of_failed
    · intro cpu
      exact Or.inl (hfailed cpu)
    · intro cpu stack
      rw [hfailed, hfailed]
  | some pid =>
    obtain ⟨v,hv,hverdict⟩ | ⟨args,d,hd⟩ := verdict_cases fs command
    · have hresult : ∀ cpu, (execute fs cpu command k).1 = v.result pid := by
        intro cpu
        rw [execute_result_some hpid, hverdict]
      apply decidesByFile_of_failed
      · intro cpu
        rw [hresult]
        exact hv pid
      · intro cpu stack
        rw [hresult, hresult]
    · by_cases hload : fs.Fails (u32 d.inodeNum) 0 fourMB
      · exact decidesByFile_of_rejects hpid hd fun _ => Or.inl hload
      by_cases hlength : 28 ≤ fs.inodeLength (u32 d.inodeNum)
      · exact decidesByFile_of_long hpid hd hload hlength
      · apply decidesByFile_of_rejects hpid hd
        intro stack
        right
        by_contra helf
        have helf : ∀ i < 4, fs.header (u32 d.inodeNum) stack i = magic.getD i 0 :=
          isElf_iff.mp (by simpa using helf)
        apply h
        refine ⟨nextPid_some_iff.mp ⟨pid,hpid⟩,args,d,hd,by omega,hload,?_⟩
        intro i hi hshown
        exact (header_shows hi hshown).symm.trans (helf i hi)

/-- An image with one entry, a regular file of no bytes. -/
def emptyFileImage : FileSystem where
  mem a := if a = 0 ∨ a = 4 then 1 else if a = 64 then 97 else if a = 96 then 2 else 0
  modStart := 0

/-- The empty file is no program with a clear buffer, and one with the magic number left in it
by an earlier call. -/
theorem emptyFileImage_decision :
    (execute emptyFileImage ⟨0,0,fun _ => 0⟩ (some (text "a"))
      (initial (fun _ => PCB.zero) fun _ => 0)).1 = .failed ∧
    (execute emptyFileImage ⟨0,0,fun i => magic.getD i 0⟩ (some (text "a"))
      (initial (fun _ => PCB.zero) fun _ => 0)).1 = .started 0 0 ∧
    ¬DecidesByFile emptyFileImage (some (text "a")) (initial (fun _ => PCB.zero) fun _ => 0) := by
  have hfailed : (execute emptyFileImage ⟨0,0,fun _ => 0⟩ (some (text "a"))
      (initial (fun _ => PCB.zero) fun _ => 0)).1 = .failed := by decide +kernel
  have hstarted : (execute emptyFileImage ⟨0,0,fun i => magic.getD i 0⟩ (some (text "a"))
      (initial (fun _ => PCB.zero) fun _ => 0)).1 = .started 0 0 := by decide +kernel
  refine ⟨hfailed,hstarted,?_⟩
  intro h
  have hsame := h.same ⟨0,0,fun _ => 0⟩ fun i => magic.getD i 0
  simp only [hfailed, hstarted] at hsame
  cases hsame

/-! ### Loading -/

/-- The addresses and bytes that a load stores through its pointer. -/
def loadStores (bytes : List UInt8) : List (ℕ × UInt8) :=
  (List.range bytes.length).map fun i => (progImageLocation+i,bytes.getD i 0)

/-- A store at a user address: in the page of the process, or past it. -/
def Video.storeUser (entry : ℕ) (v : Video) (s : ℕ × UInt8) : Video :=
  if s.1/fourMB = 32 then
    { v with phys := Function.update v.phys (entry/fourMB*fourMB+s.1 % fourMB) s.2 }
  else v.store s.1 s.2

theorem loadProgram_eq (entry : ℕ) (bytes : List UInt8) (v : Video) :
    v.loadProgram entry bytes = (loadStores bytes).foldl (Video.storeUser entry) v := by
  rw [loadStores, List.foldl_map]
  rfl

/-- The load copies the whole file from the load address on, and stays below the end of the
user page. -/
structure LoadsWithin (fs : FileSystem) (inode : ℕ) : Prop where
  whole : loadStores (fs.readData inode 0 false fourMB).2 =
    (List.range (fs.inodeLength inode).toNat).map fun i => (0x08048000+i,fs.fileByte inode i)
  inside : ∀ s ∈ loadStores (fs.readData inode 0 false fourMB).2, s.1 < 0x08400000

theorem overlay_nil (mem : ℕ → UInt8) (a : ℕ) : overlay mem a [] = mem := by
  funext i
  simp [overlay]

theorem overlay_snoc (mem : ℕ → UInt8) (a : ℕ) (bs : List UInt8) (b : UInt8) :
    overlay mem a (bs ++ [b]) = Function.update (overlay mem a bs) (a+bs.length) b := by
  funext i
  by_cases hi : i = a+bs.length
  · subst hi
    simp [overlay]
  · rw [Function.update_of_ne hi]
    by_cases ha : a ≤ i
    · by_cases hlt : i-a < bs.length
      · simp [overlay, ha, List.getElem?_append_left hlt]
      · have hge : bs.length+1 ≤ i-a := by omega
        simp [overlay, ha, List.getElem?_eq_none (l := bs) (Nat.le_of_succ_le hge),
          List.getElem?_eq_none (l := bs ++ [b]) (by simpa using hge)]
    · simp [overlay, ha]

/-- A load that stays in the page reaches no memory but the frame of the process. -/
theorem loadProgram_within (entry : ℕ) {bytes : List UInt8} (h : bytes.length ≤ 3899392)
    (v : Video) :
    v.loadProgram entry bytes =
      { v with phys := overlay v.phys (entry/fourMB*fourMB+0x48000) bytes } := by
  have hloop : v.loadProgram entry bytes = { v with
      phys := overlay v.phys (entry/fourMB*fourMB+0x48000) (bytes.take bytes.length) } := by
    refine foldl_range_rule (P := fun n w => w = { v with
      phys := overlay v.phys (entry/fourMB*fourMB+0x48000) (bytes.take n) }) ?_ _ ?_
    · rw [List.take_zero, overlay_nil]
    · rintro i hi w rfl
      have hpage : (progImageLocation+i)/fourMB = 32 := by
        unfold progImageLocation fourMB
        omega
      have hoffset : (progImageLocation+i) % fourMB = 0x48000+i := by
        unfold progImageLocation fourMB
        omega
      have htake : bytes.take (i+1) = bytes.take i ++ [bytes.getD i 0] := by
        rw [List.take_succ_eq_append_getElem hi]
        simp [hi]
      have hlength : (bytes.take i).length = i := by
        rw [List.length_take]
        omega
      simp only [hpage, hoffset, if_true, htake, overlay_snoc, hlength, Nat.add_assoc]
  rw [hloop, List.take_length]

theorem userEntry_page {pid : ℕ} (h : pid < maxNumProc) :
    userEntry pid/fourMB*fourMB = eightMB+fourMB*pid := by
  unfold maxNumProc at h
  interval_cases pid <;> decide

/-- An accepted file is the one that the command selects, with all that read_data delivers. -/
theorem fileVerdict_started {inode pid p entry : ℕ} {args : List UInt8} {stack : ℕ → UInt8}
    (h : (fs.fileVerdict stack inode args).result pid = .started p entry) :
    p = pid ∧ fs.fileVerdict stack inode args =
      .accepted args entry (fs.readData inode 0 false fourMB).2 := by
  unfold fileVerdict imageVerdict at *
  dsimp only at *
  generalize fs.readData inode 0 false headerSize = read at *
  generalize fs.readData inode 0 false fourMB = image at *
  split_ifs at h ⊢
  · cases h
  · cases h
  · cases h
  · obtain ⟨rfl,rfl⟩ := ExecResult.started.inj h
    exact ⟨rfl,rfl⟩

theorem execute_started {pid entry : ℕ} (h : (execute fs cpu command k).1 = .started pid entry) :
    k.table.nextPid = some pid ∧ ∃ args d, fs.Selects command args d ∧
      (execute fs cpu command k).2 = startProcess cpu pid args
        (loadProcess pid (fs.readData (u32 d.inodeNum) 0 false fourMB).2 (claimPid pid k)) := by
  cases hpid : k.table.nextPid with
  | none => simp [execute_result_none hpid] at h
  | some q =>
    rw [execute_result_some hpid] at h
    obtain ⟨v,hv,hverdict⟩ | ⟨args,d,hd⟩ := verdict_cases fs command
    · rw [hverdict] at h
      obtain hv | hv := hv q
      · simp [hv] at h
      · simp [hv] at h
    · rw [hd.verdict] at h
      obtain ⟨rfl,hverdict⟩ := fileVerdict_started h
      refine ⟨rfl,args,d,hd,?_⟩
      simp only [execute_eq, hpid, hd.verdict, hverdict, Verdict.carryOut]

theorem Selects.proper (hfs : fs.WellFormed) {args : List UInt8} {d : Dentry}
    (h : fs.Selects command args d) : fs.Proper d.inodeNum := by
  obtain ⟨filename,-,-,-,hd,htype⟩ := h
  obtain ⟨i,hi,rfl⟩ := readDentryByName_mem hd
  exact hfs i hi htype

/-- The whole file comes out of the load's call of read_data. -/
theorem readData_load {inode : ℤ} (h : fs.Proper inode) :
    (fs.readData (u32 inode) 0 false fourMB).2 = fs.content (u32 inode) := by
  have hbound : (fs.content inode.toNat).length ≤ fourMB :=
    h.length_bound.trans (by decide)
  have hread := h.readData_eq (Nat.zero_le _) (n := fourMB) (by decide)
  rw [hread, h.u32_inode, chunk, List.drop_zero, List.take_of_length_le hbound]

theorem loadStores_map (f : ℕ → UInt8) (n : ℕ) :
    loadStores ((List.range n).map f) = (List.range n).map fun i => (0x08048000+i,f i) := by
  unfold loadStores
  rw [List.length_map, List.length_range]
  apply List.map_congr_left
  intro i hi
  have hi := List.mem_range.mp hi
  simp [hi, progImageLocation]

/-- The last store of a file is the one to look at. -/
theorem loadsWithin_iff {inode : ℤ} (h : fs.Proper inode) :
    LoadsWithin fs (u32 inode) ↔ fs.inodeLength (u32 inode) ≤ 3899392 := by
  have hstores := loadStores_map (fs.fileByte (u32 inode))
    (fs.inodeLength (u32 inode)).toNat
  rw [← content_eq, ← readData_load h] at hstores
  constructor
  · rintro ⟨-,inside⟩
    by_contra hlong
    have hmem : ((0x08048000+3899392,fs.fileByte (u32 inode) 3899392) : ℕ × UInt8) ∈
        loadStores (fs.readData (u32 inode) 0 false fourMB).2 := by
      rw [hstores]
      apply List.mem_map.mpr
      exact ⟨3899392,List.mem_range.mpr (by omega),rfl⟩
    have hlast := inside _ hmem
    simp at hlast
  · intro hshort
    refine ⟨hstores,?_⟩
    intro s hs
    rw [hstores] at hs
    obtain ⟨i,hi,rfl⟩ := List.mem_map.mp hs
    have hi := List.mem_range.mp hi
    simp only
    omega

/-- An accepted file of a well-formed image is loaded inside the page of the process exactly
when it has at most 3899392 bytes; nothing else in memory changes then. -/
theorem load_within_iff (hfs : fs.WellFormed) {pid entry : ℕ}
    (hstarted : (execute fs cpu command k).1 = .started pid entry) :
    ∃ d, fs.program command = some d ∧
      (LoadsWithin fs (u32 d.inodeNum) ↔ fs.inodeLength (u32 d.inodeNum) ≤ 3899392) ∧
      (fs.inodeLength (u32 d.inodeNum) ≤ 3899392 → (execute fs cpu command k).2.video =
        { k.video with
          phys := overlay k.video.phys (eightMB+fourMB*pid+0x48000)
            (fs.content (u32 d.inodeNum)) }) := by
  obtain ⟨hpid,args,d,hd,hstate⟩ := execute_started hstarted
  have hproper := Selects.proper hfs hd
  refine ⟨d,hd.program,loadsWithin_iff hproper,?_⟩
  intro hshort
  have hvideo : (execute fs cpu command k).2.video = k.video.loadProgram (userEntry pid)
      (fs.readData (u32 d.inodeNum) 0 false fourMB).2 := by
    rw [hstate]
    rfl
  have hlength : (fs.content (u32 d.inodeNum)).length ≤ 3899392 := by
    rw [content_length]
    omega
  rw [hvideo, readData_load hproper, loadProgram_within _ hlength,
    userEntry_page (Table.nextPid_lt hpid)]

theorem load_within_iff_shell :
    ∃ d, shellImage.program (some (text "shell")) = some d ∧
      (LoadsWithin shellImage (u32 d.inodeNum) ↔
        shellImage.inodeLength (u32 d.inodeNum) ≤ 3899392) ∧
      (shellImage.inodeLength (u32 d.inodeNum) ≤ 3899392 →
        (booted shellImage (fun _ => PCB.zero) (fun _ => 0) ⟨0,0,fun _ => 0⟩).video =
          { (initial (fun _ => PCB.zero) fun _ => 0).video with
            phys := overlay (initial (fun _ => PCB.zero) fun _ => 0).video.phys
              (eightMB+fourMB*0+0x48000) (shellImage.content (u32 d.inodeNum)) }) := by
  have hstarted : (execute shellImage ⟨0,0,fun _ => 0⟩ (some (text "shell"))
      (initial (fun _ => PCB.zero) fun _ => 0)).1 = .started 0 0x08048018 := by decide +kernel
  exact load_within_iff shellImage_wellFormed hstarted

/-- A program one byte longer than the rest of the user page, all of it in one block. -/
def longProgram : FileSystem where
  modStart := 0
  mem a :=
    if a < 4096 then
      if a = 0 ∨ a = 4 ∨ a = 8 then 1 else if a = 64 then 97 else if a = 96 then 2 else 0
    else if a < 8192 then [0x01,0x80,0x3B].getD (a-4096) 0
    else if a < 8196 then magic.getD (a-8192) 0
    else if a < 8216 then 0
    else [0x18,0x80,0x04,0x08].getD (a-8216) 0

theorem longProgram_proper : longProgram.Proper (0 : ℕ) :=
  ⟨by decide,by decide +kernel,by decide +kernel,by decide +kernel,by decide +kernel⟩

theorem longProgram_wellFormed : longProgram.WellFormed := by
  have hfirst : ∀ i < numDir, (longProgram.directory i).filetype = 2 → i = 0 := by
    decide +kernel
  intro i hi htype
  obtain rfl := hfirst i hi htype
  have hinode : (longProgram.directory 0).inodeNum = (0 : ℕ) := by decide +kernel
  rw [hinode]
  exact longProgram_proper

theorem longProgram_selects :
    longProgram.Selects (some (text "a")) [] (longProgram.directory 0) := by
  have hfind : (List.range numDir).find? (fun i =>
      strncmp (longProgram.directory i).filename (cstring (text "a")) nameLen = 0) = some 0 := by
    decide +kernel
  have hname : ¬(i32 (strlen (text "a")) > nameLen ∨ i32 (strlen (text "a")) = 0) := by
    decide +kernel
  refine ⟨text "a",by decide,by decide,by decide,?_,by decide +kernel⟩
  simp only [FileSystem.readDentryByName, if_neg hname, hfind, Option.map_some]

/-- The program is accepted, and the last byte of its load goes past the page. -/
theorem longProgram_leaves_page :
    (execute longProgram ⟨0,0,fun _ => 0⟩ (some (text "a"))
        (initial (fun _ => PCB.zero) fun _ => 0)).1 = .started 0 0x08048018 ∧
      longProgram.inodeLength 0 = 3899393 ∧ ¬LoadsWithin longProgram 0 := by
  have hlength : longProgram.inodeLength 0 = 3899393 := by decide +kernel
  have hwithin : LoadsWithin longProgram 0 ↔ longProgram.inodeLength 0 ≤ 3899392 :=
    loadsWithin_iff longProgram_proper
  have hread := longProgram_proper.readData_eq (Nat.zero_le _) (n := fourMB) (by decide)
  have hload : ¬longProgram.Fails 0 0 fourMB := by
    rw [← fails_iff (by decide)]
    intro hvalue
    have hvalue : (longProgram.readData (u32 (0 : ℕ)) 0 false fourMB).1 = -1 := hvalue
    rw [hread] at hvalue
    omega
  have hpid : (initial (fun _ => PCB.zero) fun _ => 0).table.nextPid = some 0 := by decide +kernel
  have hinode : u32 (longProgram.directory 0).inodeNum = 0 := by decide +kernel
  have helf : isElf (longProgram.header 0 fun _ => 0) = true := by decide +kernel
  have hentry : word (longProgram.header 0 fun _ => 0) 24 = 0x08048018 := by decide +kernel
  refine ⟨?_,hlength,?_⟩
  · rw [execute_result_some hpid, longProgram_selects.verdict, hinode,
      fileVerdict_accepts [] 0 hload helf, hentry]
  · rw [hwithin, hlength]
    decide

end GameOfThreads
