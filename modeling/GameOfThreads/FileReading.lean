import GameOfThreads.DescriptorRuns
import GameOfThreads.FileContent

/-! Files read in pieces. The trace of a run tells what has been read through a descriptor
since a regular file was opened on it; on a well-formed image that is the beginning of the
file, whatever other processes and descriptors do in between. -/
namespace GameOfThreads
open Machine

/-- A regular file open on a descriptor: its inode, and what has been read since. -/
structure Session where
  inode : ℤ
  reader : Reader UInt8

def Out.bytes : Out → List UInt8
  | .reply (.done _ bytes) => bytes
  | _ => []

/-- What open starts for a directory entry. -/
def Dentry.session (d : Dentry) : Option Session :=
  if d.filetype = 2 then some ⟨d.inodeNum,.start⟩ else none

namespace FileSystem
variable (fs : FileSystem)

/-- The session on a descriptor after a step of the process that it belongs to, taken in a
given state and with a given output. -/
def followOwn (fd : ℕ) (s : Option Session) (k : Kernel) (out : Out) : Op → Option Session
  | .sysOpen filename =>
    if out = .reply (.done fd []) then (fs.readDentryByName filename).bind Dentry.session else s
  | .read g _ nbytes _ =>
    if g = fd then s.map fun s => { s with reader := s.reader.read nbytes.toNat out.bytes } else s
  | .close g => if g = fd then none else s
  | .halt _ _ => none
  | .squash _ => if k.termsOn = 0 then s else none
  | _ => s

/-- The session on descriptor `fd` of process `p` after one more step. -/
def follow (p fd : ℕ) (s : Option Session) (m : Move Kernel Op Out) : Option Session :=
  if m.out.started = some p then none
  else if p ≠ m.pre.running then s
  else fs.followOwn fd s m.pre m.out m.event

/-- The session on descriptor `fd` of process `p`, from the steps so far. -/
def session (p fd : ℕ) (h : List (Move Kernel Op Out)) : Option Session :=
  h.foldl (fs.follow p fd) none

theorem session_snoc (p fd : ℕ) (h : List (Move Kernel Op Out)) (m : Move Kernel Op Out) :
    fs.session p fd (h ++ [m]) = fs.follow p fd (fs.session p fd h) m := by simp [session]

/-- The content of the file of a session. -/
def file (s : Session) : List UInt8 := fs.content s.inode.toNat

/-- The descriptor is where the session says, and the session has read what it passed. -/
structure Tracks (s : Session) (des : FileDes) : Prop where
  opTable : des.opTable = .fileOps
  flags : des.flags = 1
  inode : des.inode = s.inode
  proper : fs.Proper s.inode
  position : des.filePosition = s.reader.position (fs.file s)
  exact : s.reader.Exact (fs.file s)

end FileSystem

/-- A regular file is open on the descriptor. -/
def FileDes.IsFile (des : FileDes) : Prop := des.flags = 1 ∧ des.opTable = .fileOps

/-- Every session is tracked, and on a process that has started no file is open without. -/
def FileSystem.Follows (fs : FileSystem) (started : Prop) (des : FileDes) : Option Session → Prop
  | some s => fs.Tracks s des
  | none => started → ¬des.IsFile

namespace FileSystem.Tracks
variable {fs : FileSystem} {s : Session} {des : FileDes} {k : Kernel} {fd : ℕ}

/-- A read on a tracked descriptor delivers the next chunk and moves on by its length. -/
theorem fileRead_eq (h : fs.Tracks s (k.des fd)) (h₂ : fileStart ≤ fd) (h₈ : fd < maxFile)
    {nbytes : ℤ} (h₀ : 0 ≤ nbytes) (hn : nbytes < 2147483648) :
    fileRead fs fd false nbytes k =
      ((((chunk (fs.file s) (s.reader.position (fs.file s)) nbytes.toNat).length : ℤ),
        chunk (fs.file s) (s.reader.position (fs.file s)) nbytes.toNat),
      k.setDes fd { k.des fd with filePosition :=
        (s.reader.read nbytes.toNat []).position (fs.file s) }) := by
  have hargs : ¬(nbytes < 0 ∨ false = true ∨ (fd : ℤ) < fileStart ∨ (fd : ℤ) ≥ maxFile) := by
    simp only [Bool.false_eq_true, false_or]
    omega
  have hbound : (fs.file s).length ≤ datbSize*fourKB := h.proper.length_bound
  have hposition := s.reader.position_le (fs.file s)
  have hread : fs.readData (u32 s.inode) (s.reader.position (fs.file s)) false nbytes.toNat =
      (((chunk (fs.file s) (s.reader.position (fs.file s)) nbytes.toNat).length : ℤ),
        chunk (fs.file s) (s.reader.position (fs.file s)) nbytes.toNat) :=
    h.proper.readData_eq hposition (by omega)
  have hlength := Reader.chunk_length s.reader (fs.file s) nbytes.toNat
  have hnext := Reader.position_read (r := s.reader) (l := fs.file s) (n := nbytes.toNat) []
  unfold datbSize fourKB at hbound
  rw [fileRead, if_neg hargs]
  simp only [Int.toNat_natCast, if_pos h.flags, h.inode, h.position]
  rw [u32_natCast (by omega), u32_eq_toNat h₀ (by omega), hread]
  simp only [hlength, hnext]
  rw [i32_of_range (by omega) (by omega), Nat.cast_add]

/-- So does read, and the session goes on. -/
theorem read_step (h : fs.Tracks s (k.des fd)) (h₂ : fileStart ≤ fd) (h₈ : fd < maxFile)
    {nbytes : ℤ} (h₀ : 0 ≤ nbytes) (hn : nbytes < 2147483648) (cpu : Cpu) :
    ∃ bytes, bytes = chunk (fs.file s) (s.reader.position (fs.file s)) nbytes.toNat ∧
      (GameOfThreads.read fs fd false nbytes cpu k).1 = .done bytes.length bytes ∧
      fs.Tracks { s with reader := s.reader.read nbytes.toNat bytes }
        ((GameOfThreads.read fs fd false nbytes cpu k).2.files k.running fd) := by
  have hrange : ¬((fd : ℤ) < 0 ∨ (fd : ℤ) ≥ maxFile ∨ (fd : ℤ) = 1 ∨ false = true) := by
    unfold fileStart at h₂
    simp only [Bool.false_eq_true, or_false]
    omega
  have hpresent : ¬(k.des fd).flags = 0 := by rw [h.flags]; decide
  have hread : GameOfThreads.read fs fd false nbytes cpu k =
      (.done (fileRead fs fd false nbytes k).1.1 (fileRead fs fd false nbytes k).1.2,
        (fileRead fs fd false nbytes k).2) := by
    rw [GameOfThreads.read, if_neg hrange, Int.toNat_natCast, if_neg hpresent, h.opTable]
  rw [hread, h.fileRead_eq h₂ h₈ h₀ hn]
  refine ⟨_,rfl,rfl,?_⟩
  rw [setDes_self]
  exact ⟨h.opTable,h.flags,h.inode,h.proper,rfl,h.exact.read _⟩

end FileSystem.Tracks

namespace FileSystem.Follows
variable {fs : FileSystem} {started : Prop} {des des' : FileDes} {s : Option Session}

theorem imp (h : fs.Follows started des s) {started' : Prop} (himp : started' → started) :
    fs.Follows started' des s := by
  cases s with
  | none => exact fun hstarted => h (himp hstarted)
  | some s => exact h

theorem none_of (h : ¬des.IsFile) : fs.Follows started des none := fun _ => h

end FileSystem.Follows

theorem not_isFile {des : FileDes} (h : des.flags = 0) : ¬des.IsFile := fun hfile =>
  absurd (h.symm.trans hfile.1) (by decide)

/-- The reads of a run have a buffer and a size that is not negative. -/
def Op.GoodRead : Op → Prop
  | .read _ null nbytes _ => null = false ∧ 0 ≤ nbytes ∧ nbytes < 2147483648
  | _ => True

theorem Dentry.session_file {d : Dentry} (h : d.filetype = 2) :
    d.session = some ⟨d.inodeNum,.start⟩ := by rw [session, if_pos h]

theorem Dentry.session_other {d : Dentry} (h : d.filetype ≠ 2) : d.session = none := by
  rw [session, if_neg h]

theorem readDentryByName_proper {fs : FileSystem} (hfs : fs.WellFormed)
    {filename : Option (List UInt8)} {d : Dentry} (hd : fs.readDentryByName filename = some d)
    (htype : d.filetype = 2) : fs.Proper d.inodeNum := by
  obtain ⟨i,hi,hdir⟩ := readDentryByName_mem hd
  rw [hdir] at htype ⊢
  exact hfs i hi htype

theorem OpenedAs.tracks {fs : FileSystem} {d : Dentry} {des : FileDes} (h : OpenedAs d des)
    (htype : d.filetype = 2) (hproper : fs.Proper d.inodeNum) :
    fs.Tracks ⟨d.inodeNum,.start⟩ des where
  opTable := by
    rw [h.opTable, htype]
    rfl
  flags := h.present
  inode := h.inode htype
  proper := hproper
  position := by simp [h.position, Reader.start, Reader.position]
  exact := Reader.start_exact _

theorem OpenedAs.not_isFile {d : Dentry} {des : FileDes} (h : OpenedAs d des)
    (htype : d.filetype = 0 ∨ d.filetype = 1) : ¬des.IsFile := fun hfile => by
  have htable := h.opTable.symm.trans hfile.2
  rcases htype with htype | htype
  · rw [htype] at htable
    exact absurd htable (by decide)
  · rw [htype] at htable
    exact absurd htable (by decide)

theorem OpenedAs.follows {fs : FileSystem} (hfs : fs.WellFormed) {filename : Option (List UInt8)}
    {d : Dentry} (hd : fs.readDentryByName filename = some d)
    (htype : d.filetype = 0 ∨ d.filetype = 1 ∨ d.filetype = 2) {des : FileDes}
    (h : OpenedAs d des) (started : Prop) : fs.Follows started des d.session := by
  by_cases hregular : d.filetype = 2
  · rw [Dentry.session_file hregular]
    exact h.tracks hregular (readDentryByName_proper hfs hd hregular)
  · rw [Dentry.session_other hregular]
    exact FileSystem.Follows.none_of (h.not_isFile (by tauto))

section
variable {fs : FileSystem} {k : Kernel} {fd : ℕ} {started : Prop} {s : Option Session}

theorem open_follows (hfs : fs.WellFormed) (filename : Option (List UInt8))
    (h : fs.Follows started (k.files k.running fd) s) :
    fs.Follows started ((sysOpen fs filename k).2.files k.running fd)
      (fs.followOwn fd s k (.reply (sysOpen fs filename k).1) (.sysOpen filename)) := by
  have hlaw := sysOpen_law fs filename k
  simp only [FileSystem.followOwn]
  by_cases hopen : Openable fs filename k
  · obtain ⟨d,g,hd,hfree,hreply,hopened,honly⟩ := hlaw.success hopen
    by_cases hg : g = fd
    · subst hg
      obtain ⟨⟨d',hd',htype⟩,-⟩ := hopen
      have hsame : d' = d := Option.some.inj (hd'.symm.trans hd)
      rw [hsame] at htype
      rw [if_pos hreply, hd, Option.bind_some]
      exact hopened.follows hfs hd htype started
    · have hother : Out.reply (sysOpen fs filename k).1 ≠ .reply (.done fd []) := by
        rw [hreply]
        simpa using hg
      rw [if_neg hother, honly k.running fd (.inr (Ne.symm hg))]
      exact h
  · obtain ⟨hreply,hstate⟩ := hlaw.failure hopen
    have hother : Out.reply (sysOpen fs filename k).1 ≠ .reply (.done fd []) := by
      rw [hreply]
      simp
    rw [if_neg hother, hstate]
    exact h

variable (h₂ : fileStart ≤ fd) (h₈ : fd < maxFile)
include h₂ h₈

theorem close_follows (g : ℤ) (h : fs.Follows started (k.files k.running fd) s) :
    fs.Follows started ((close g k).2.files k.running fd)
      (fs.followOwn fd s k (.reply (close g k).1) (.close g)) := by
  have hlaw := close_law g k
  simp only [FileSystem.followOwn]
  by_cases hg : g = fd
  · subst hg
    rw [if_pos rfl]
    refine FileSystem.Follows.none_of (not_isFile ?_)
    by_cases hclose : Closable fd k
    · exact (hlaw.success hclose).2.1
    · rw [(hlaw.failure hclose).2]
      by_contra hpresent
      exact hclose ⟨by omega,by omega,hpresent⟩
  · rw [if_neg hg]
    by_cases hclose : Closable g k
    · rw [(hlaw.success hclose).2.2 k.running fd (.inr (by have := hclose.1; omega))]
      exact h
    · rw [(hlaw.failure hclose).2]
      exact h

theorem read_follows {g nbytes : ℤ} {null : Bool} {cpu : Cpu}
    (hread : (Op.read g null nbytes cpu).GoodRead)
    (h : fs.Follows started (k.files k.running fd) s) :
    fs.Follows started ((read fs g null nbytes cpu k).2.files k.running fd)
      (fs.followOwn fd s k (.reply (read fs g null nbytes cpu k).1)
        (.read g null nbytes cpu)) := by
  obtain ⟨rfl,h₀,hn⟩ := hread
  have hmoves := read_movesOnly fs g false nbytes cpu k
  simp only [FileSystem.followOwn]
  by_cases hg : g = fd
  · subst hg
    rw [if_pos rfl]
    cases s with
    | none =>
      obtain ⟨position,hown⟩ := hmoves.own fd rfl
      rw [Option.map_none, hown]
      exact h
    | some s =>
      obtain ⟨bytes,-,hreply,htracks⟩ := FileSystem.Tracks.read_step h h₂ h₈ h₀ hn cpu
      rw [Option.map_some, hreply]
      exact htracks
  · rw [if_neg hg, hmoves.others k.running fd (.inr (Ne.symm hg))]
    exact h

/-- What the process of a descriptor does to its session. -/
theorem own_follows (hfs : fs.WellFormed) {op : Op} (hop : op.GoodRead)
    (h : fs.Follows started (k.files k.running fd) s)
    (hstart : ((kernel fs).out k op).started ≠ some k.running) :
    fs.Follows started (((kernel fs).next k op).files k.running fd)
      (fs.followOwn fd s k ((kernel fs).out k op) op) := by
  have hclosed : (closeOf k.running k.files k.running fd).flags = 0 := by
    rw [closeOf, if_pos ⟨rfl,h₂,h₈⟩]
  have hsame : ∀ {files' : Files} {started' : Option ℕ}, StartsOnly started' k.files files' →
      started' ≠ some k.running → fs.Follows started (files' k.running fd) s := by
    intro files' started' hs hne
    rw [hs.others k.running hne]
    exact h
  have hlaw := descriptorLaw fs k op
  cases op with
  | sysOpen filename => exact open_follows hfs filename h
  | close g => exact close_follows h₂ h₈ g h
  | read g null nbytes cpu => exact read_follows h₂ h₈ hop h
  | write g buf nbytes =>
    have hfiles : ((kernel fs).next k (.write g buf nbytes)).files = k.files := WriteLaw.files hlaw
    rw [hfiles]
    exact h
  | halt status cpu =>
    have hothers := StartsOnly.others hlaw k.running hstart
    refine FileSystem.Follows.none_of (not_isFile ?_)
    rw [show ((kernel fs).next k (.halt status cpu)).files k.running = _ from hothers]
    exact hclosed
  | squash cpu =>
    have hend := squashException_law fs cpu k
    simp only [FileSystem.followOwn]
    by_cases hon : k.termsOn = 0
    · rw [if_pos hon] at hend
      rw [if_pos hon, next_squash, hend]
      exact h
    · rw [if_neg hon] at hend
      rw [if_neg hon, next_squash]
      refine FileSystem.Follows.none_of (not_isFile ?_)
      rw [hend.others k.running hstart]
      exact hclosed
  | _ => exact hsame hlaw hstart

/-- Every step keeps every session in line with its descriptor. -/
theorem follow_step (hfs : fs.WellFormed) {p : ℕ} {op : Op} (hop : op.GoodRead)
    (h : fs.Follows started (k.files p fd) s) :
    fs.Follows (started ∨ ((kernel fs).out k op).started = some p)
      (((kernel fs).next k op).files p fd) (fs.follow p fd s ((kernel fs).move k op)) := by
  have hfollow : fs.follow p fd s ((kernel fs).move k op) =
      if ((kernel fs).out k op).started = some p then none
      else if p ≠ k.running then s
      else fs.followOwn fd s k ((kernel fs).out k op) op := rfl
  rw [hfollow]
  by_cases hstart : ((kernel fs).out k op).started = some p
  · rw [if_pos hstart]
    exact FileSystem.Follows.none_of (not_isFile ((started_fresh fs k op hstart).free fd h₂ h₈))
  have himp : started ∨ ((kernel fs).out k op).started = some p → started := fun h =>
    h.resolve_right hstart
  rw [if_neg hstart]
  by_cases hp : p = k.running
  · subst hp
    rw [if_neg (not_not.mpr rfl)]
    exact (own_follows h₂ h₈ hfs hop h hstart).imp himp
  · rw [if_pos hp, files_of_other fs k op hp hstart]
    exact h.imp himp

end

/-! ### Runs -/

/-- Some step has started a process with this PID. -/
def HasStarted (p : ℕ) (h : List (Move Kernel Op Out)) : Prop :=
  ∃ m ∈ h, m.out.started = some p

theorem hasStarted_snoc {p : ℕ} {h : List (Move Kernel Op Out)} {m : Move Kernel Op Out}
    (hp : HasStarted p (h ++ [m])) : HasStarted p h ∨ m.out.started = some p := by
  obtain ⟨m',hm',hout⟩ := hp
  rcases List.mem_append.mp hm' with hm' | hm'
  · exact .inl ⟨m',hm',hout⟩
  · exact .inr (List.mem_singleton.mp hm' ▸ hout)

theorem shellImage_wellFormed : shellImage.WellFormed := by
  have honly : ∀ i < numDir, (shellImage.directory i).filetype = 2 → i = 0 := by decide +kernel
  intro i hi htype
  obtain rfl := honly i hi htype
  have hblocks : ∀ k < 1, 0 ≤ shellImage.dataBlockNum 0 k ∧
      shellImage.dataBlockNum 0 k < shellImage.dataCount := by decide +kernel
  have hinode : (shellImage.directory 0).inodeNum = 0 := by decide +kernel
  rw [hinode]
  refine ⟨by decide,by decide +kernel,by decide +kernel,by decide +kernel,?_⟩
  intro k hk
  have hcount : shellImage.blockCount 0 = 1 := by decide +kernel
  exact hblocks k (hcount ▸ hk)

end GameOfThreads
