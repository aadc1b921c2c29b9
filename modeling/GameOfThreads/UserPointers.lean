import GameOfThreads.Directory
import GameOfThreads.FailedReads

/-! Output pointers of system calls. read and getargs look at their pointer only for NULL
and vidmap only at where it starts; when the bytes stored stay in the user page all the
same, and a call with a bad range is refused. -/
namespace GameOfThreads
open Machine

/-- The calls that store through a pointer of their caller, with the caller's arguments. -/
inductive UserCall
  | read (fd : ℤ) (buf : ℕ) (nbytes : ℤ) (cpu : Cpu)
  | getargs (buf : ℕ) (nbytes : ℤ)
  | vidmap (screenStart : ℕ)

namespace UserCall

def op : UserCall → Op
  | .read fd buf nbytes cpu => .read fd (buf = 0) nbytes cpu
  | .getargs buf nbytes => .getargs (buf = 0) nbytes
  | .vidmap screenStart => .vidmap screenStart

def dest : UserCall → ℕ
  | .read _ buf _ _ => buf
  | .getargs buf _ => buf
  | .vidmap screenStart => screenStart

/-- The length of the range that the call names. -/
def size : UserCall → ℕ
  | .read _ _ nbytes _ => nbytes.toNat
  | .getargs _ nbytes => nbytes.toNat
  | .vidmap _ => 4

/-- A size argument is a signed 32-bit value. -/
def Args32 : UserCall → Prop
  | .read _ _ nbytes _ => nbytes < 2147483648
  | .getargs _ nbytes => nbytes < 2147483648
  | .vidmap _ => True

end UserCall

/-- The `n` bytes at 32-bit addresses from `dest` on are all in the user page. -/
def Inside (dest n : ℕ) : Prop :=
  ∀ i < n, 0x08000000 ≤ (dest+i) % 4294967296 ∧ (dest+i) % 4294967296 < 0x08400000

/-- A call comes to this value and these bytes: at once, or after being blocked, in a state
in which its process has the processor and still waits as the call has left it. -/
def Outcome (fs : FileSystem) (call : UserCall) (k : Kernel) (value : ℤ) (bytes : List UInt8) :
    Prop :=
  (step fs k call.op).1 = .reply (.done value bytes) ∨
    (step fs k call.op).1 = .reply .blocked ∧
      ∃ k', k'.waiting k'.running = (step fs k call.op).2.waiting k.running ∧
        (resume k').1 = .done value bytes

/-- Every byte stored is in the user page, and a range that is not is an error. -/
def Confines (fs : FileSystem) (call : UserCall) (k : Kernel) : Prop :=
  ∀ value bytes, Outcome fs call k value bytes →
    Inside call.dest bytes.length ∧ (¬Inside call.dest call.size → value = -1 ∧ bytes = [])

/-- The table's own routine turns a read down before it stores anything. -/
def ReadRefused (fs : FileSystem) (fd : ℤ) (nbytes : ℤ) (k : Kernel) : OpTable → Prop
  | .rtcOps => False
  | .stdOps => nbytes < 0
  | .null => True
  | .fileOps => FileReadRefused fd false nbytes k ∨
      fs.Rejected (u32 (k.des fd.toNat).inode) (u32 (k.des fd.toNat).filePosition) (u32 nbytes) ∨
      ¬fs.TurnedAway (u32 (k.des fd.toNat).inode) (u32 (k.des fd.toNat).filePosition)
          (u32 nbytes) ∧
        ¬fs.Passes (u32 (k.des fd.toNat).inode) (u32 (k.des fd.toNat).filePosition)
  | .directoryOps => fd < fileStart ∨ nbytes ≤ 0 ∨
      u32 (k.des fd.toNat).filePosition ≤ u32 fs.dirCount ∧
        u32 (k.des fd.toNat).filePosition ≥ u32 fs.inodeCount

/-- The call is turned down, for a reason other than its range. -/
def UserCall.Refused (fs : FileSystem) (k : Kernel) : UserCall → Prop
  | .read fd buf nbytes _ => fd < 0 ∨ fd ≥ maxFile ∨ fd = 1 ∨ buf = 0 ∨
      (k.des fd.toNat).flags = 0 ∨ ReadRefused fs fd nbytes k (k.des fd.toNat).opTable
  | .getargs buf nbytes => buf = 0 ∨ nbytes < 0 ∨ (k.pcb k.running).argString = [] ∨
      nbytes < (k.pcb k.running).argString.length
  | .vidmap screenStart => screenStart < mem128 ∨ screenStart > mem132

/-- The range is inside the page; for getargs the terminator that it stores is as well. -/
def UserCall.InPage (k : Kernel) : UserCall → Prop
  | .read _ buf nbytes _ => Inside buf nbytes.toNat
  | .getargs buf nbytes =>
    Inside buf nbytes.toNat ∧ Inside buf ((k.pcb k.running).argString.length+1)
  | .vidmap screenStart => Inside screenStart 4

theorem Inside.mono {dest m n : ℕ} (h : Inside dest n) (hmn : m ≤ n) : Inside dest m :=
  fun i hi => h i (by omega)

theorem Inside.zero (dest : ℕ) : Inside dest 0 := by
  intro i hi
  omega

variable {fs : FileSystem} {k : Kernel}

theorem confines_of_done {call : UserCall} {value : ℤ} {bytes : List UInt8}
    (h : (step fs k call.op).1 = .reply (.done value bytes)) :
    Confines fs call k ↔
      Inside call.dest bytes.length ∧ (¬Inside call.dest call.size → value = -1 ∧ bytes = []) := by
  constructor
  · intro hconf
    exact hconf value bytes (Or.inl h)
  · rintro hgood value' bytes' (hout | ⟨hout,-⟩)
    · rw [h] at hout
      cases hout
      exact hgood
    · rw [h] at hout
      cases hout

/-- A call that is turned down is in order whatever its range. -/
theorem confines_of_refused {call : UserCall}
    (h : (step fs k call.op).1 = .reply (.done (-1) [])) : Confines fs call k := by
  rw [confines_of_done h]
  exact ⟨Inside.zero _,fun _ => ⟨rfl,rfl⟩⟩

/-- A call that answers something else needs its range. -/
theorem confines_of_answered {call : UserCall} {value : ℤ} {bytes : List UInt8}
    (h : (step fs k call.op).1 = .reply (.done value bytes)) (hgood : value ≠ -1 ∨ bytes ≠ []) :
    Confines fs call k ↔ Inside call.dest call.size ∧ Inside call.dest bytes.length := by
  have hnot : ¬(value = -1 ∧ bytes = []) := by tauto
  rw [confines_of_done h, and_comm]
  simp only [hnot, imp_false, not_not]

/-! ### vidmap and getargs -/

theorem vidmap_confines_iff (screenStart : ℕ) :
    Confines fs (.vidmap screenStart) k ↔
      UserCall.Refused fs k (.vidmap screenStart) ∨ UserCall.InPage k (.vidmap screenStart) := by
  by_cases hrefused : screenStart < mem128 ∨ screenStart > mem132
  · have hout : (step fs k (UserCall.vidmap screenStart).op).1 = .reply (.done (-1) []) := by
      simp only [UserCall.op, step, vidmap, reply, if_pos hrefused]
    exact iff_of_true (confines_of_refused hout) (Or.inl hrefused)
  · have hout : (step fs k (UserCall.vidmap screenStart).op).1 = .reply
        (.done (i32 (k.terminal k.currentTerm).termVideoMem)
          (wordBytes (k.terminal k.currentTerm).termVideoMem)) := by
      simp only [UserCall.op, step, vidmap, reply, if_neg hrefused]
    rw [confines_of_answered hout (Or.inr (by simp [wordBytes]))]
    simp only [UserCall.Refused, hrefused, false_or]
    exact and_self_iff

theorem getargs_confines_iff (buf : ℕ) {nbytes : ℤ} (hn : nbytes < 2147483648) :
    Confines fs (.getargs buf nbytes) k ↔
      UserCall.Refused fs k (.getargs buf nbytes) ∨ UserCall.InPage k (.getargs buf nbytes) := by
  have hargs : UserCall.Refused fs k (.getargs buf nbytes) ↔
      (decide (buf = 0) = true ∨ nbytes < 0) ∨ (k.pcb k.running).argString.length = 0 ∨
        u32 nbytes < (k.pcb k.running).argString.length := by
    simp only [UserCall.Refused, List.length_eq_zero_iff, decide_eq_true_eq]
    by_cases hneg : nbytes < 0
    · simp [hneg]
    · have hu : u32 nbytes < (k.pcb k.running).argString.length ↔
          nbytes < (k.pcb k.running).argString.length := by
        unfold u32
        omega
      rw [hu, or_assoc]
  by_cases hrefused : UserCall.Refused fs k (.getargs buf nbytes)
  · have hout : (step fs k (UserCall.getargs buf nbytes).op).1 = .reply (.done (-1) []) := by
      simp only [UserCall.op, step, getargs, reply]
      split_ifs with hfirst hsecond
      · rfl
      · rfl
      · exact absurd (hargs.mp hrefused) (by tauto)
    exact iff_of_true (confines_of_refused hout) (Or.inl hrefused)
  · have hno := mt hargs.mpr hrefused
    rw [not_or] at hno
    have hout : (step fs k (UserCall.getargs buf nbytes).op).1 = .reply
        (.done 0 ((k.pcb k.running).argString++[noke])) := by
      simp only [UserCall.op, step, getargs, reply, if_neg hno.1, if_neg hno.2]
    rw [confines_of_answered hout (Or.inl (by decide))]
    simp [hrefused, UserCall.InPage, UserCall.dest, UserCall.size]

/-! ### read -/

theorem confines_of_answer {call : UserCall} {value : ℤ} {bytes : List UInt8}
    (h : (step fs k call.op).1 = .reply (.done value bytes)) (hgood : value ≠ -1 ∨ bytes ≠ [])
    (hlength : bytes.length ≤ call.size) :
    Confines fs call k ↔ Inside call.dest call.size := by
  rw [confines_of_answered h hgood]
  exact and_iff_left_of_imp fun hrange => hrange.mono hlength

/-- A call that blocks, and comes to an answer with no more bytes than its range has. -/
theorem confines_of_blocked {call : UserCall} {w : Wait}
    (h : (step fs k call.op).1 = .reply .blocked)
    (hwait : (step fs k call.op).2.waiting k.running = some w)
    (hready : ∃ k' value bytes, k'.waiting k'.running = some w ∧
      (resume k').1 = .done value bytes)
    (hgood : ∀ k' value bytes, k'.waiting k'.running = some w →
      (resume k').1 = .done value bytes → value ≠ -1 ∧ bytes.length ≤ call.size) :
    Confines fs call k ↔ Inside call.dest call.size := by
  constructor
  · intro hconf
    obtain ⟨k',value,bytes,hk',hout⟩ := hready
    by_contra hrange
    obtain ⟨-,hbad⟩ := hconf value bytes (Or.inr ⟨h,k',hk'.trans hwait.symm,hout⟩)
    exact (hgood k' value bytes hk' hout).1 (hbad hrange).1
  · rintro hrange value bytes (hout | ⟨-,k',hk',hout⟩)
    · rw [h] at hout
      cases hout
    · have hlength := (hgood k' value bytes (hk'.trans hwait) hout).2
      exact ⟨hrange.mono hlength,fun hno => absurd hrange hno⟩

theorem resume_clock {k : Kernel} (h : k.waiting k.running = some .rtc) :
    (resume k).1 = if k.rtcFlag k.currentTerm = 0 then .blocked else .done 0 [] := by
  simp only [resume, h, readRtc]
  split_ifs <;> rfl

theorem resume_reader {k : Kernel} {limit : ℕ}
    (h : k.waiting k.running = some (.terminal limit)) :
    (resume k).1 = if (k.terminal k.currentTerm).enterFlag = 0 then .blocked
      else .done (terminalReadFinish limit k).1.length (terminalReadFinish limit k).1 := by
  simp only [resume, h]
  split_ifs <;> rfl

/-- A blocked reader can find a line submitted. -/
theorem exists_ready (k : Kernel) (limit : ℕ) : ∃ k' : Kernel,
    k'.waiting k'.running = some (.terminal limit) ∧
      (resume k').1 =
        .done (terminalReadFinish limit k').1.length (terminalReadFinish limit k').1 := by
  let k' := { k with waiting := fun _ => some (.terminal limit) }.onTerminal k.currentTerm
    (Terminal.setEnterFlag 1)
  have hflag : (k'.terminal k'.currentTerm).enterFlag = 1 := by
    simp [k', Kernel.onTerminal, Terminal.setEnterFlag]
  have hwait : k'.waiting k'.running = some (.terminal limit) := rfl
  refine ⟨k',hwait,?_⟩
  rw [resume_reader hwait, if_neg (by simp [hflag])]

theorem finish_length_le (limit : ℕ) (k : Kernel) :
    (terminalReadFinish limit k).1.length ≤ limit := by
  simp only [terminalReadFinish, List.length_map, List.length_range]
  split_ifs with h
  · exact h.le
  · exact le_rfl

/-- read hands the call on to the routine of the descriptor's table. -/
structure Dispatched (fd : ℤ) (buf : ℕ) (k : Kernel) : Prop where
  low : 0 ≤ fd
  high : fd < maxFile
  stdout : fd ≠ 1
  buf : buf ≠ 0
  present : (k.des fd.toNat).flags ≠ 0

section
variable {fd : ℤ} {buf : ℕ} {nbytes : ℤ} {cpu : Cpu}

theorem Dispatched.read_eq (h : Dispatched fd buf k) :
    read fs fd (buf = 0) nbytes cpu k =
      match (k.des fd.toNat).opTable with
      | .rtcOps =>
        match readRtc k with
        | some (value,k) => (.done value [],k)
        | none => (.blocked,{ k with waiting := Function.update k.waiting k.running (some .rtc) })
      | .fileOps => let r := fileRead fs fd false nbytes k; (.done r.1.1 r.1.2,r.2)
      | .directoryOps => let r := directoryRead fs fd false nbytes cpu k; (.done r.1.1 r.1.2,r.2)
      | .stdOps => terminalRead false nbytes k
      | .null => (.done (-1) [],k) := by
  have hlow := h.low
  have hhigh := h.high
  have hargs : ¬(fd < 0 ∨ fd ≥ maxFile ∨ fd = 1 ∨ false = true) := by
    have := h.stdout
    simp only [Bool.false_eq_true, or_false]
    omega
  rw [decide_eq_false h.buf]
  refine (if_neg hargs).trans ((if_neg h.present).trans ?_)
  cases (k.des fd.toNat).opTable with
  | rtcOps =>
    cases readRtc k with
    | none => rfl
    | some r => rfl
  | fileOps => rfl
  | directoryOps => rfl
  | stdOps => rfl
  | null => rfl

theorem read_refused (h : ¬Dispatched fd buf k) :
    (step fs k (UserCall.read fd buf nbytes cpu).op).1 = .reply (.done (-1) []) := by
  simp only [UserCall.op, step, reply, read]
  split_ifs with hargs hflags
  · rfl
  · rfl
  · simp only [decide_eq_true_eq, not_or] at hargs
    exact absurd ⟨by omega,by omega,hargs.2.2.1,hargs.2.2.2,hflags⟩ h

section
variable (h : Dispatched fd buf k) (hn : nbytes < 2147483648)
include h

theorem read_null (htable : (k.des fd.toNat).opTable = .null) :
    (step fs k (UserCall.read fd buf nbytes cpu).op).1 = .reply (.done (-1) []) := by
  simp only [UserCall.op, step, reply, h.read_eq, htable]

theorem read_file (htable : (k.des fd.toNat).opTable = .fileOps) :
    (step fs k (UserCall.read fd buf nbytes cpu).op).1 =
      .reply (.done (fileRead fs fd false nbytes k).1.1 (fileRead fs fd false nbytes k).1.2) := by
  simp only [UserCall.op, step, reply, h.read_eq, htable]

theorem read_directory (htable : (k.des fd.toNat).opTable = .directoryOps) :
    (step fs k (UserCall.read fd buf nbytes cpu).op).1 =
      .reply (.done (directoryRead fs fd false nbytes cpu k).1.1
        (directoryRead fs fd false nbytes cpu k).1.2) := by
  simp only [UserCall.op, step, reply, h.read_eq, htable]

theorem read_std (htable : (k.des fd.toNat).opTable = .stdOps) :
    step fs k (UserCall.read fd buf nbytes cpu).op = reply (terminalRead false nbytes k) := by
  simp only [UserCall.op, step, h.read_eq, htable]

theorem read_clock (htable : (k.des fd.toNat).opTable = .rtcOps) :
    step fs k (UserCall.read fd buf nbytes cpu).op =
      reply (match readRtc k with
        | some (value,k) => (.done value [],k)
        | none => (.blocked,{ k with waiting := Function.update k.waiting k.running (some .rtc) }))
      := by
  simp only [UserCall.op, step, h.read_eq, htable]

theorem clock_confines_iff (htable : (k.des fd.toNat).opTable = .rtcOps) :
    Confines fs (.read fd buf nbytes cpu) k ↔
      ReadRefused fs fd nbytes k .rtcOps ∨ Inside buf nbytes.toNat := by
  have hstep : step fs k (UserCall.read fd buf nbytes cpu).op = _ := read_clock h htable
  simp only [ReadRefused, false_or]
  unfold readRtc at hstep
  by_cases hflag : k.rtcFlag k.currentTerm = 0
  · rw [if_pos hflag] at hstep
    have hwait : (step fs k (UserCall.read fd buf nbytes cpu).op).2.waiting k.running =
        some .rtc := by
      rw [hstep]
      exact Function.update_self ..
    apply confines_of_blocked (by rw [hstep]; rfl) hwait
    · refine ⟨{ k with waiting := fun _ => some .rtc, rtcFlag := fun _ => 1 },0,[],rfl,?_⟩
      rw [resume_clock rfl]
      rfl
    · intro k' value bytes hk' hout
      rw [resume_clock hk'] at hout
      split_ifs at hout
      cases hout
      exact ⟨by decide,Nat.zero_le _⟩
  · rw [if_neg hflag] at hstep
    have hout : (step fs k (UserCall.read fd buf nbytes cpu).op).1 = .reply (.done 0 []) := by
      rw [hstep]
      rfl
    exact confines_of_answer hout (Or.inl (by decide)) (Nat.zero_le _)

include hn

theorem file_confines_iff (htable : (k.des fd.toNat).opTable = .fileOps) :
    Confines fs (.read fd buf nbytes cpu) k ↔
      ReadRefused fs fd nbytes k .fileOps ∨ Inside buf nbytes.toNat := by
  have hout : (step fs k (UserCall.read fd buf nbytes cpu).op).1 = _ := read_file h htable
  by_cases hrefused : FileReadRefused fd false nbytes k
  · rw [fileRead_of_refused hrefused] at hout
    exact iff_of_true (confines_of_refused hout) (Or.inl (Or.inl hrefused))
  rw [fileRead_of_accepted hrefused] at hout
  have hsize : u32 nbytes = nbytes.toNat := by
    simp only [FileReadRefused, not_or] at hrefused
    exact u32_eq_toNat (by omega) (by omega)
  simp only [ReadRefused, hrefused, false_or, Kernel.fileData, hsize] at hout ⊢
  generalize u32 (k.des fd.toNat).inode = inode at *
  generalize u32 (k.des fd.toNat).filePosition = offset at *
  have hlength : (fs.readData inode offset false nbytes.toNat).2.length ≤ nbytes.toNat :=
    FileSystem.readData_length_le (by omega)
  by_cases hr : fs.Rejected inode offset nbytes.toNat
  · rw [FileSystem.readData_of_rejected hr] at hout
    exact iff_of_true (confines_of_refused hout) (Or.inl (Or.inl hr))
  by_cases hturn : fs.TurnedAway inode offset nbytes.toNat
  · rw [FileSystem.readData_of_turnedAway hturn hr] at hout
    rw [confines_of_answer hout (Or.inl (by simp)) (Nat.zero_le _)]
    simp [hr, hturn, UserCall.dest, UserCall.size]
  have hfirst := FileSystem.readData_first hturn (by omega)
  by_cases hpass : fs.Passes inode offset
  · rw [if_pos hpass] at hfirst
    rw [confines_of_answer hout (Or.inr hfirst) hlength]
    simp [hr, hpass, UserCall.dest, UserCall.size]
  · rw [if_neg hpass] at hfirst
    rw [hfirst] at hout
    exact iff_of_true (confines_of_refused hout) (Or.inl (Or.inr ⟨hturn,hpass⟩))

theorem directory_confines_iff (htable : (k.des fd.toNat).opTable = .directoryOps) :
    Confines fs (.read fd buf nbytes cpu) k ↔
      ReadRefused fs fd nbytes k .directoryOps ∨ Inside buf nbytes.toNat := by
  have hout : (step fs k (UserCall.read fd buf nbytes cpu).op).1 = _ := read_directory h htable
  by_cases hargs : fd < fileStart ∨ nbytes ≤ 0
  · have hread : directoryRead fs fd false nbytes cpu k = ((-1,[]),k) := by
      rw [directoryRead, if_pos (by tauto)]
    rw [hread] at hout
    exact iff_of_true (confines_of_refused hout) (Or.inl (hargs.imp_right Or.inl))
  obtain ⟨hfd,hpos⟩ := not_or.mp hargs
  have hfd : fileStart ≤ fd := by omega
  have hpos : 0 < nbytes := by omega
  by_cases hpast : u32 (k.des fd.toNat).filePosition > u32 fs.dirCount
  · rw [directoryRead_past hfd h.high hpos rfl cpu hpast] at hout
    have hno : ¬ReadRefused fs fd nbytes k .directoryOps := by
      rintro (hr | hr | ⟨hr,-⟩)
      · exact hargs (Or.inl hr)
      · exact hargs (Or.inr hr)
      · exact Nat.not_lt.mpr hr hpast
    rw [or_iff_right hno]
    exact confines_of_answer hout (Or.inl (by simp)) (Nat.zero_le _)
  have hwithin := Nat.not_lt.mp hpast
  by_cases hbeyond : u32 (k.des fd.toNat).filePosition ≥ u32 fs.inodeCount
  · rw [directoryRead_beyond hfd h.high hpos rfl cpu hwithin hbeyond] at hout
    exact iff_of_true (confines_of_refused hout) (Or.inl (Or.inr (Or.inr ⟨hwithin,hbeyond⟩)))
  · obtain ⟨d,-,hread⟩ := directoryRead_entry hfd h.high hpos rfl cpu hwithin
      (Nat.not_le.mp hbeyond)
    rw [hread] at hout
    have hvalue : (copyName d.filename (nameLimit nbytes) 0).1 ≠ -1 := by
      rw [copyName_eq]
      simp only
      omega
    have hno : ¬ReadRefused fs fd nbytes k .directoryOps := by
      rintro (hr | hr | ⟨-,hr⟩)
      · exact hargs (Or.inl hr)
      · exact hargs (Or.inr hr)
      · exact hbeyond hr
    rw [or_iff_right hno]
    exact confines_of_answer hout (Or.inl hvalue)
      ((copyName_length_le _ _ _).trans (nameLimit_le hpos hn))

theorem std_confines_iff (htable : (k.des fd.toNat).opTable = .stdOps) :
    Confines fs (.read fd buf nbytes cpu) k ↔
      ReadRefused fs fd nbytes k .stdOps ∨ Inside buf nbytes.toNat := by
  have hstep : step fs k (UserCall.read fd buf nbytes cpu).op = _ := read_std h htable
  by_cases hneg : nbytes < 0
  · have hout : (step fs k (UserCall.read fd buf nbytes cpu).op).1 = .reply (.done (-1) []) := by
      rw [hstep]
      simp [reply, terminalRead, terminalReadStart, hneg]
    exact iff_of_true (confines_of_refused hout) (Or.inl hneg)
  simp only [ReadRefused, hneg, false_or]
  obtain ⟨limit,hlimit,hstart⟩ : ∃ limit, limit ≤ nbytes.toNat ∧ terminalReadStart false nbytes k =
      (some limit,k.onTerminal k.currentTerm (Terminal.setReadWanted 1)) := by
    refine ⟨if nbytes < keyBuffSize then u8 nbytes else keyBuffSize,?_,?_⟩
    · unfold keyBuffSize u8
      split_ifs <;> omega
    · simp [terminalReadStart, hneg]
  rw [terminalRead, hstart] at hstep
  have hrunning : (k.onTerminal k.currentTerm (Terminal.setReadWanted 1)).running = k.running := by
    simp [Kernel.running, Kernel.onTerminal, Terminal.setReadWanted]
  generalize k.onTerminal k.currentTerm (Terminal.setReadWanted 1) = k₁ at hstep hrunning
  by_cases hflag : (k₁.terminal k₁.currentTerm).enterFlag = 0
  · simp only [if_pos hflag, hrunning] at hstep
    have hwait : (step fs k (UserCall.read fd buf nbytes cpu).op).2.waiting k.running =
        some (.terminal limit) := by
      rw [hstep]
      exact Function.update_self ..
    apply confines_of_blocked (by rw [hstep]; rfl) hwait
    · obtain ⟨k',hk',hready⟩ := exists_ready k limit
      exact ⟨k',_,_,hk',hready⟩
    · intro k' value bytes hk' hout
      rw [resume_reader hk'] at hout
      split_ifs at hout
      cases hout
      exact ⟨by omega,(finish_length_le limit k').trans hlimit⟩
  · simp only [if_neg hflag] at hstep
    have hout : (step fs k (UserCall.read fd buf nbytes cpu).op).1 =
        .reply (.done (terminalReadFinish limit k₁).1.length (terminalReadFinish limit k₁).1) := by
      rw [hstep]
      rfl
    exact confines_of_answer hout (Or.inl (by omega)) ((finish_length_le limit k₁).trans hlimit)

end

end

theorem read_confines_iff (fd : ℤ) (buf : ℕ) {nbytes : ℤ} (hn : nbytes < 2147483648) (cpu : Cpu) :
    Confines fs (.read fd buf nbytes cpu) k ↔
      UserCall.Refused fs k (.read fd buf nbytes cpu) ∨
        UserCall.InPage k (.read fd buf nbytes cpu) := by
  by_cases h : Dispatched fd buf k
  · have hrefused : UserCall.Refused fs k (.read fd buf nbytes cpu) ↔
        ReadRefused fs fd nbytes k (k.des fd.toNat).opTable := by
      have hlow : ¬fd < 0 := Int.not_lt.mpr h.low
      have hhigh : ¬fd ≥ maxFile := Int.not_le.mpr h.high
      simp only [UserCall.Refused, hlow, hhigh, h.stdout, h.buf, h.present, false_or]
    rw [hrefused]
    cases htable : (k.des fd.toNat).opTable with
    | null => exact iff_of_true (confines_of_refused (read_null h htable)) (Or.inl trivial)
    | rtcOps => exact clock_confines_iff h htable
    | fileOps => exact file_confines_iff h hn htable
    | directoryOps => exact directory_confines_iff h hn htable
    | stdOps => exact std_confines_iff h hn htable
  · have hrefused : UserCall.Refused fs k (.read fd buf nbytes cpu) := by
      by_contra hno
      simp only [UserCall.Refused, not_or] at hno
      exact h ⟨by omega,by omega,hno.2.2.1,hno.2.2.2.1,hno.2.2.2.2.1⟩
    exact iff_of_true (confines_of_refused (read_refused h)) (Or.inl hrefused)

/-- A call keeps its stores in the user page and refuses a bad range exactly when it is
refused for another reason or its range is in the page. -/
theorem call_confines_iff (fs : FileSystem) (k : Kernel) {call : UserCall} (hcall : call.Args32) :
    Confines fs call k ↔ call.Refused fs k ∨ call.InPage k := by
  cases call with
  | read fd buf nbytes cpu => exact read_confines_iff fd buf hcall cpu
  | getargs buf nbytes => exact getargs_confines_iff buf hcall
  | vidmap screenStart => exact vidmap_confines_iff screenStart

theorem call_confines_iff_page :
    Confines (oneEntryImage 2) (.read 2 0x08000000 32 ⟨0,0,fun _ => 0⟩) freshKernel := by
  have hargs : (UserCall.read 2 0x08000000 32 ⟨0,0,fun _ => 0⟩).Args32 := by
    simp [UserCall.Args32]
  apply (call_confines_iff (oneEntryImage 2) freshKernel hargs).mpr
  right
  intro i hi
  have hi : i < 32 := hi
  omega

/-- A directory read puts a name into video memory, and vidmap stores past the page. -/
theorem stores_leave_page :
    (step (oneEntryImage 2) freshKernel (.read 2 false 32 ⟨0,0,fun _ => 0⟩)).1 =
        .reply (.done 1 [97,0]) ∧
      ¬Confines (oneEntryImage 2) (.read 2 0xB8000 32 ⟨0,0,fun _ => 0⟩) freshKernel ∧
      ¬Confines (oneEntryImage 2) (.vidmap 0x08400000) freshKernel := by
  have hread : (step (oneEntryImage 2) freshKernel (.read 2 false 32 ⟨0,0,fun _ => 0⟩)).1 =
      .reply (.done 1 [97,0]) := by decide +kernel
  have hvidmap : (step (oneEntryImage 2) freshKernel (.vidmap 0x08400000)).1 =
      .reply (.done 0 [0,0,0,0]) := by decide +kernel
  refine ⟨hread,?_,?_⟩
  · intro h
    have hstored := (h 1 [97,0] (Or.inl hread)).1 0 (by decide)
    simp [UserCall.dest] at hstored
  · intro h
    have hstored := (h 0 [0,0,0,0] (Or.inl hvidmap)).1 0 (by decide)
    simp [UserCall.dest] at hstored

end GameOfThreads
