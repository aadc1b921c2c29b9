import GameOfThreads.ClearCalls

/-! Descriptors and files on every run, with the stores of the kernel through the pointers of
its callers. As long as none of these goes into the kernel, each step obeys the law of its event
and each open file is read from its start on without a gap. -/
namespace GameOfThreads
open Machine

def Callers.initial (pcb : ℕ → PCB) (phys : ℕ → UInt8) : Callers :=
  ⟨GameOfThreads.initial pcb phys,fun _ => 0,false⟩

/-- The events of a run from boot: the first shell, then anything. -/
def callsFromBoot (cpu : Cpu) (calls : List Call) : List Call :=
  ⟨.execute (some (text "shell")) cpu,0,cpu⟩ :: calls

/-- A step without addresses. -/
def baseMove (m : Move Callers Call Out) : Move Kernel Op Out :=
  ⟨m.pre.kernel,m.event.base,m.out,m.post.kernel⟩

/-- The stores of an event that hands out no bytes. -/
theorem after_eq (A : PageArrays) (fs : FileSystem) (s : Callers) (c : Call) :
    ∃ l, s.after A fs c = ((kernel fs).next s.kernel c.base).pokes l ∧
      (¬c.base.Stores → l = []) := by
  refine ⟨_,rfl,fun hstores => ?_⟩
  rw [bytes_of_not_stores fs s.kernel hstores]
  rfl

section
variable {A : PageArrays} {fs : FileSystem} {s : Callers} {c : Call}

theorem clear_out (hlost : s.lost = false) (h : Clear A fs s c) :
    (callers A fs).out s c = (kernel fs).out s.kernel c.base := by
  obtain ⟨buffer,hstep⟩ := clear_step hlost h
  exact congrArg Prod.fst hstep

theorem clear_next (hlost : s.lost = false) (h : Clear A fs s c) :
    ((callers A fs).next s c).kernel = s.after A fs c ∧ ((callers A fs).next s c).lost = false := by
  obtain ⟨buffer,hstep⟩ := clear_step hlost h
  rw [System.next, hstep]
  exact ⟨rfl,rfl⟩

/-- Descriptors are not in the memory that a clear step stores to. -/
theorem clear_files (hlost : s.lost = false) (h : Clear A fs s c) :
    ((callers A fs).next s c).kernel.files = ((kernel fs).next s.kernel c.base).files := by
  obtain ⟨l,hafter,-⟩ := after_eq A fs s c
  rw [(clear_next hlost h).1, hafter, pokes_files]

/-! ### The descriptor tables -/

/-- The laws of the events look at descriptors. -/
theorem DescriptorLaw.pokes {k k' : Kernel} {op : Op} {out : Out}
    (h : DescriptorLaw fs ⟨k,op,out,k'⟩) {l : List (ℕ × UInt8)} (hl : ¬op.Stores → l = []) :
    DescriptorLaw fs ⟨k,op,out,k'.pokes l⟩ := by
  cases op with
  | read fd null nbytes cpu =>
    have hlaw : ReadLaw fd k out k' := h
    exact ⟨hlaw.absent,⟨hlaw.moves.others,hlaw.moves.own⟩⟩
  | getargs null nbytes =>
    have hlaw : StartsOnly out.started k.files k'.files := h
    exact hlaw
  | vidmap screenStart =>
    have hlaw : StartsOnly out.started k.files k'.files := h
    exact hlaw
  | resume =>
    have hlaw : StartsOnly out.started k.files k'.files := h
    exact hlaw
  | _ =>
    rw [hl fun h => h]
    exact h

theorem clear_law (hlost : s.lost = false) (h : Clear A fs s c) :
    DescriptorLaw fs (baseMove ((callers A fs).move s c)) := by
  obtain ⟨l,hafter,hl⟩ := after_eq A fs s c
  have hmove : baseMove ((callers A fs).move s c) = ⟨s.kernel,c.base,
      (kernel fs).out s.kernel c.base,((kernel fs).next s.kernel c.base).pokes l⟩ := by
    rw [← hafter, ← (clear_next hlost h).1, ← clear_out hlost h]
    rfl
  rw [hmove]
  exact (descriptorLaw fs s.kernel c.base).pokes hl

end

/-- On every run from boot whose steps are clear each step obeys the law of its event, and each
process started so far, live or not, has the standard descriptors. -/
theorem descriptorTable_governed (A : PageArrays) (fs : FileSystem) (pcb : ℕ → PCB)
    (phys : ℕ → UInt8) (cpu : Cpu) {calls : List Call}
    (hclear : (callers A fs).Along (Clear A fs) (Callers.initial pcb phys)
      (callsFromBoot cpu calls)) :
    let h := (callers A fs).trace (Callers.initial pcb phys) (callsFromBoot cpu calls)
    (∀ m ∈ h, DescriptorLaw fs (baseMove m)) ∧ ∀ p, (∃ m ∈ h, m.out.started = some p) →
      Standard ((callers A fs).run (Callers.initial pcb phys)
        (callsFromBoot cpu calls)).kernel.files p := by
  intro h
  have hkeep : ∀ s c, s.lost = false → Clear A fs s c →
      ((callers A fs).next s c).lost = false := fun s c hlost hc => (clear_next hlost hc).2
  refine ⟨hclear.trace_forall hkeep (fun s c hlost hc => clear_law hlost hc) rfl,?_⟩
  intro p
  refine (System.Along.history (S := callers A fs) (R := fun h s => s.lost = false ∧
    ((∃ m ∈ h, m.out.started = some p) → Standard s.kernel.files p)) ?_ ⟨rfl,by simp⟩ hclear).2
  rintro h s c ⟨hlost,ih⟩ hc
  refine ⟨hkeep s c hlost hc,?_⟩
  rintro ⟨m,hm,hp⟩
  rw [clear_files hlost hc]
  apply standard_step fs s.kernel c.base
  rcases List.mem_append.mp hm with hm | hm
  · exact .inl (ih ⟨m,hm,hp⟩)
  · obtain rfl := List.mem_singleton.mp hm
    exact .inr ((congrArg Out.started (clear_out hlost hc)).symm.trans hp)

/-- The image of the shell, in the page of the kernel. -/
def mappedImage : FileSystem where
  modStart := 0x420000
  mem a := shellImage.mem (a-0x420000)

def openShell : Call := ⟨.sysOpen (some (text "shell")),0,⟨0,0,fun _ => 0⟩⟩

/-- A read of four bytes. -/
def readInto (fd : ℤ) (dest : ℕ) : Call := ⟨.read fd false 4 ⟨0,0,fun _ => 0⟩,dest,⟨0,0,fun _ => 0⟩⟩

/-- The state after the first shell has made some calls. -/
def shellCalls (calls : List Call) : Callers :=
  (callers firstPages mappedImage).run (Callers.initial (fun _ => PCB.zero) fun _ => 0)
    (callsFromBoot ⟨0,0,fun _ => 0⟩ calls)

theorem boot_clear : Clear firstPages mappedImage (Callers.initial (fun _ => PCB.zero) fun _ => 0)
    ⟨.execute (some (text "shell")) ⟨0,0,fun _ => 0⟩,0,⟨0,0,fun _ => 0⟩⟩ := by
  have hstores : ¬Op.Stores (.execute (some (text "shell")) ⟨0,0,fun _ => 0⟩) := fun h => h
  refine .of_not_stores hstores (by decide) ?_
  rintro _ _ ⟨⟩ _ _ ⟨⟩
  decide

theorem openShell_clear (s : Callers) : Clear firstPages mappedImage s openShell := by
  have hstores : ¬openShell.op.Stores := fun h => h
  exact .of_not_stores hstores (by decide) fun _ _ => Op.noConfusion

theorem readInto_goodRead (fd : ℤ) {dest : ℕ} (hdest : dest ≠ 0) :
    (readInto fd dest).base.GoodRead :=
  ⟨decide_eq_false hdest,by decide,by decide⟩

theorem readInto_clear {s : Callers} {dest : ℕ} (huser : s.kernel.pageDirUser = userEntry 0)
    (htable : (s.kernel.des 2).opTable = .fileOps) (hword : dest < 4294967296)
    (hdest : Inside dest 4) (hspan : s.kernel.readSpan mappedImage 2 4 .fileOps ≤ 4)
    (hcount : (s.kernel.addressMap firstPages).Word (mappedImage.modStart+4))
    (hnode : (s.kernel.addressMap firstPages).Word
      (mappedImage.inodeAddr+fourKB*u32 (s.kernel.des 2).inode))
    (hdata : ∀ i < 4, mappedImage.Looks (s.kernel.addressMap firstPages)
        (u32 (s.kernel.des 2).inode) (FileSystem.positionAt (u32 (s.kernel.des 2).filePosition) i) ∧
      mappedImage.Loads (s.kernel.addressMap firstPages) (u32 (s.kernel.des 2).inode)
        (FileSystem.positionAt (u32 (s.kernel.des 2).filePosition) i)) :
    Clear firstPages mappedImage s (readInto 2 dest) := by
  refine ⟨⟨hword,?_,fun _ => Op.noConfusion,fun _ _ => Op.noConfusion,fun _ => Op.noConfusion⟩,
    ?_,?_,fun _ _ => Op.noConfusion⟩
  · rintro _ _ _ _ ⟨⟩ table hd
    obtain rfl := hd.2.symm.trans htable
    exact (hdest.mono hspan).outside firstPages (by decide) huser
  · rintro _ _ _ _ ⟨⟩ _ _
    refine ⟨hcount,fun _ => hnode,fun hturn i hi _ => ?_⟩
    have hrounds : s.kernel.readSpan mappedImage 2 4 .fileOps = mappedImage.rounds
        (u32 (s.kernel.des 2).inode) (u32 (s.kernel.des 2).filePosition) (u32 4) :=
      if_neg (not_or.mpr ⟨by decide,hturn⟩)
    obtain ⟨hlooks,hloads⟩ := hdata i (Nat.lt_of_lt_of_le hi (hrounds ▸ hspan))
    exact ⟨hlooks,fun _ => hloads⟩
  · rintro _ _ _ _ ⟨⟩ _ hdirectory
    exact absurd (htable.symm.trans hdirectory.2) (by decide)

/-- The shell opens its own program twice and reads it into its page. -/
theorem descriptorTable_governed_shell :
    let calls := [openShell,openShell,readInto 2 0x08000000]
    Standard (shellCalls calls).kernel.files 0 ∧
      ∀ m ∈ (callers firstPages mappedImage).trace (Callers.initial (fun _ => PCB.zero) fun _ => 0)
        (callsFromBoot ⟨0,0,fun _ => 0⟩ calls), DescriptorLaw mappedImage (baseMove m) := by
  intro calls
  have hclear : (callers firstPages mappedImage).Along (Clear firstPages mappedImage)
      (Callers.initial (fun _ => PCB.zero) fun _ => 0)
      (callsFromBoot ⟨0,0,fun _ => 0⟩ calls) := by
    refine ⟨boot_clear,openShell_clear _,openShell_clear _,?_,trivial⟩
    have hinside : Inside 0x08000000 4 := fun i hi => by omega
    exact readInto_clear (by decide +kernel) (by decide +kernel) (by decide) hinside
      (by decide +kernel) (by decide +kernel) (by decide +kernel) (by decide +kernel)
  obtain ⟨hlaw,hstandard⟩ := descriptorTable_governed firstPages mappedImage (fun _ => PCB.zero)
    (fun _ => 0) ⟨0,0,fun _ => 0⟩ hclear
  refine ⟨hstandard 0 ⟨_,List.mem_cons_self,?_⟩,hlaw⟩
  decide +kernel

/-- A read into the PCB overwrites the position of another descriptor, and one into descriptor
0 its flags. -/
theorem descriptor_overwritten :
    (shellCalls [openShell,openShell]).kernel.files 0 3 = ⟨.fileOps,0,0,1⟩ ∧
      (shellCalls [openShell,openShell,readInto 2 0x7FE068]).kernel.files 0 3 =
        ⟨.fileOps,0,0x464C457F,1⟩ ∧
      ¬DescriptorLaw mappedImage (baseMove ((callers firstPages mappedImage).move
        (shellCalls [openShell,openShell]) (readInto 2 0x7FE068))) ∧
      ¬Standard (shellCalls [openShell,readInto 2 0x7FE018]).kernel.files 0 := by
  have hbefore : (shellCalls [openShell,openShell]).kernel.files 0 3 = ⟨.fileOps,0,0,1⟩ := by
    decide +kernel
  have hafter : (shellCalls [openShell,openShell,readInto 2 0x7FE068]).kernel.files 0 3 =
      ⟨.fileOps,0,0x464C457F,1⟩ := by decide +kernel
  refine ⟨hbefore,hafter,fun hlaw => ?_,fun hstandard => ?_⟩
  · have hsame := (ReadLaw.moves hlaw).others 0 3 (.inr (by decide))
    have hposition : (0x464C457F : ℤ) = 0 :=
      congrArg FileDes.filePosition ((hafter.symm.trans hsame).trans hbefore)
    exact absurd hposition (by decide)
  · have hflags := hstandard.flags 0 (by decide)
    revert hflags
    decide +kernel

/-! ### Files in pieces -/

/-- After every such run every session is in line with its descriptor. -/
theorem session_run {A : PageArrays} {fs : FileSystem} (hfs : fs.WellFormed) {s : Callers}
    (hlost : s.lost = false) {calls : List Call}
    (hcalls : (callers A fs).Along (fun s c => c.base.GoodRead ∧ Clear A fs s c) s calls)
    {p fd : ℕ} (h₂ : fileStart ≤ fd) (h₈ : fd < maxFile) :
    let h := ((callers A fs).trace s calls).map baseMove
    fs.Follows (HasStarted p h) (((callers A fs).run s calls).kernel.files p fd)
        (fs.session p fd h) ∧ ((callers A fs).run s calls).lost = false := by
  refine System.Along.history (S := callers A fs) (R := fun h s =>
    fs.Follows (HasStarted p (h.map baseMove)) (s.kernel.files p fd)
      (fs.session p fd (h.map baseMove)) ∧ s.lost = false) ?_ ⟨?_,hlost⟩ hcalls
  · rintro h s c ⟨ih,hlost⟩ ⟨hread,hc⟩
    have hmove : fs.follow p fd (fs.session p fd (h.map baseMove))
        (baseMove ((callers A fs).move s c)) =
          fs.follow p fd (fs.session p fd (h.map baseMove)) ((kernel fs).move s.kernel c.base) := by
      simp only [FileSystem.follow, baseMove, System.move, clear_out hlost hc]
      rfl
    refine ⟨?_,(clear_next hlost hc).2⟩
    rw [List.map_append, List.map_singleton, fs.session_snoc, hmove, clear_files hlost hc]
    refine (follow_step h₂ h₈ hfs hread ih).imp fun hp => ?_
    refine (hasStarted_snoc hp).imp id fun hp => ?_
    exact (congrArg Out.started (clear_out hlost hc)).symm.trans hp
  · rintro ⟨m,hm,-⟩
    cases hm

/-- What has been read through descriptor `fd` of process `p`, and what a read with its buffer
outside of the kernel will find. -/
structure Sequential (A : PageArrays) (fs : FileSystem) (s : Callers) (p fd : ℕ) (f : Session) :
    Prop where
  inode : (s.kernel.files p fd).inode = f.inode
  length : ((fs.file f).length : ℤ) = fs.inodeLength f.inode.toNat
  position : (s.kernel.files p fd).filePosition = min f.reader.asked (fs.file f).length
  got : f.reader.got = (fs.file f).take (min f.reader.asked (fs.file f).length)
  next : ∀ nbytes cpu dest fault, 0 ≤ nbytes → nbytes < 2147483648 → dest ≠ 0 →
    s.kernel.running = p → Clear A fs s ⟨.read fd false nbytes cpu,dest,fault⟩ → ∃ bytes,
      (callers A fs).out s ⟨.read fd false nbytes cpu,dest,fault⟩ = .reply
        (.done (min nbytes ((fs.file f).length-(s.kernel.files p fd).filePosition)) bytes)
  stop : (fs.file f).length ≤ f.reader.asked → ∀ nbytes cpu dest fault, 0 ≤ nbytes →
    nbytes < 2147483648 → dest ≠ 0 → s.kernel.running = p →
      Clear A fs s ⟨.read fd false nbytes cpu,dest,fault⟩ →
        (callers A fs).out s ⟨.read fd false nbytes cpu,dest,fault⟩ = .reply (.done 0 [])

theorem FileSystem.Tracks.sequential {A : PageArrays} {fs : FileSystem} {s : Callers}
    {p fd : ℕ} {f : Session} (h : fs.Tracks f (s.kernel.files p fd)) (hlost : s.lost = false)
    (h₂ : fileStart ≤ fd) (h₈ : fd < maxFile) : Sequential A fs s p fd f := by
  have hread : ∀ {nbytes : ℤ} {cpu : Cpu} {dest : ℕ} {fault : Cpu}, dest ≠ 0 →
      Clear A fs s ⟨.read fd false nbytes cpu,dest,fault⟩ →
      (callers A fs).out s ⟨.read fd false nbytes cpu,dest,fault⟩ =
        .reply (read fs fd false nbytes cpu s.kernel).1 := by
    intro nbytes cpu dest fault hdest hc
    have hbase : Call.base ⟨.read fd false nbytes cpu,dest,fault⟩ = .read fd false nbytes cpu := by
      simp only [Call.base, decide_eq_false hdest]
    rw [clear_out hlost hc, hbase]
    rfl
  refine ⟨h.inode,?_,?_,h.exact,?_,?_⟩
  · have hlength := h.proper.length_nonneg
    rw [FileSystem.file, FileSystem.content_length]
    omega
  · rw [h.position, Reader.position, Nat.cast_min]
  · intro nbytes cpu dest fault h₀ hn hdest hp hc
    subst hp
    obtain ⟨bytes,hbytes,hreply,-⟩ := h.read_step h₂ h₈ h₀ hn cpu
    have hlength := Reader.chunk_length f.reader (fs.file f) nbytes.toNat
    have hle := f.reader.position_le (fs.file f)
    refine ⟨bytes,(hread hdest hc).trans ?_⟩
    rw [← hbytes] at hlength
    rw [h.position]
    refine congrArg Out.reply (hreply.trans ?_)
    rw [show (bytes.length : ℤ) =
      min nbytes (((fs.file f).length : ℤ)-f.reader.position (fs.file f)) by omega]
  · intro hend nbytes cpu dest fault h₀ hn hdest hp hc
    subst hp
    obtain ⟨bytes,hbytes,hreply,-⟩ := h.read_step h₂ h₈ h₀ hn cpu
    rw [Reader.chunk_end hend] at hbytes
    rw [hbytes] at hreply
    exact (hread hdest hc).trans (congrArg Out.reply hreply)

/-- On a well-formed image, after every run whose steps are clear, each open file has been read
from its start on without a gap, up to its position, and goes on from there. -/
theorem fileReading_sequential (A : PageArrays) {fs : FileSystem} (hfs : fs.WellFormed)
    (pcb : ℕ → PCB) (phys : ℕ → UInt8) (cpu : Cpu) {calls : List Call}
    (hcalls : ∀ c ∈ calls, c.base.GoodRead)
    (hclear : (callers A fs).Along (Clear A fs) (Callers.initial pcb phys)
      (callsFromBoot cpu calls)) {p fd : ℕ} (h₂ : fileStart ≤ fd) (h₈ : fd < maxFile) :
    let h := ((callers A fs).trace (Callers.initial pcb phys)
      (callsFromBoot cpu calls)).map baseMove
    let s := (callers A fs).run (Callers.initial pcb phys) (callsFromBoot cpu calls)
    HasStarted p h → (s.kernel.files p fd).IsFile →
      ∃ f, fs.session p fd h = some f ∧ Sequential A fs s p fd f := by
  intro h s hp hfile
  have hboot : ∀ c ∈ callsFromBoot cpu calls, c.base.GoodRead := by
    intro c hc
    rcases List.mem_cons.mp hc with rfl | hc
    · trivial
    · exact hcalls c hc
  obtain ⟨hrun,hlost⟩ := session_run hfs (s := Callers.initial pcb phys) rfl (hclear.legal hboot)
    (p := p) h₂ h₈
  cases hf : fs.session p fd h with
  | none =>
    rw [hf] at hrun
    exact absurd hfile (hrun hp)
  | some f =>
    rw [hf] at hrun
    exact ⟨f,rfl,FileSystem.Tracks.sequential hrun hlost h₂ h₈⟩

theorem mappedImage_wellFormed : mappedImage.WellFormed := by
  have honly : ∀ i < numDir, (mappedImage.directory i).filetype = 2 → i = 0 := by decide +kernel
  intro i hi htype
  obtain rfl := honly i hi htype
  have hblocks : ∀ k < 1, 0 ≤ mappedImage.dataBlockNum 0 k ∧
      mappedImage.dataBlockNum 0 k < mappedImage.dataCount := by decide +kernel
  have hinode : (mappedImage.directory 0).inodeNum = 0 := by decide +kernel
  rw [hinode]
  refine ⟨by decide,by decide +kernel,by decide +kernel,by decide +kernel,?_⟩
  intro k hk
  have hcount : mappedImage.blockCount 0 = 1 := by decide +kernel
  exact hblocks k (hcount ▸ hk)

/-- The trace of a run of the first shell, without addresses. -/
def shellMoves (calls : List Call) : List (Move Kernel Op Out) :=
  ((callers firstPages mappedImage).trace (Callers.initial (fun _ => PCB.zero) fun _ => 0)
    (callsFromBoot ⟨0,0,fun _ => 0⟩ calls)).map baseMove

/-- The first shell opens its own program file and reads it in two parts. -/
theorem fileReading_sequential_shell :
    let calls := [openShell,readInto 2 0x08000000,readInto 2 0x08000004]
    ∃ f, mappedImage.session 0 2 (shellMoves calls) = some f ∧
      Sequential firstPages mappedImage (shellCalls calls) 0 2 f := by
  intro calls
  have hclear : (callers firstPages mappedImage).Along (Clear firstPages mappedImage)
      (Callers.initial (fun _ => PCB.zero) fun _ => 0)
      (callsFromBoot ⟨0,0,fun _ => 0⟩ calls) := by
    have hfirst : Inside 0x08000000 4 := fun i hi => by omega
    have hsecond : Inside 0x08000004 4 := fun i hi => by omega
    refine ⟨boot_clear,openShell_clear _,?_,?_,trivial⟩
    · exact readInto_clear (by decide +kernel) (by decide +kernel) (by decide) hfirst
        (by decide +kernel) (by decide +kernel) (by decide +kernel) (by decide +kernel)
    · exact readInto_clear (by decide +kernel) (by decide +kernel) (by decide) hsecond
        (by decide +kernel) (by decide +kernel) (by decide +kernel) (by decide +kernel)
  have hcalls : ∀ c ∈ calls, c.base.GoodRead :=
    List.forall_mem_cons.mpr ⟨trivial,List.forall_mem_cons.mpr ⟨readInto_goodRead 2 (by decide),
      List.forall_mem_singleton.mpr (readInto_goodRead 2 (by decide))⟩⟩
  refine fileReading_sequential firstPages mappedImage_wellFormed _ _ _ hcalls hclear
    (by decide) (by decide) ⟨_,List.mem_cons_self,by decide +kernel⟩ ⟨?_,?_⟩
  · decide +kernel
  · decide +kernel

/-- A read into the PCB overwrites the position of its own descriptor, and the next one fails
where the file has 36 more bytes. -/
theorem position_overwritten :
    let calls := [openShell,readInto 2 0x7FE04C]
    mappedImage.WellFormed ∧ (∀ c ∈ calls, c.base.GoodRead) ∧
      (mappedImage.session 0 2 (shellMoves calls)).map (fun f =>
        (f.reader.asked,(mappedImage.file f).length)) = some (4,40) ∧
      ((shellCalls calls).kernel.files 0 2).filePosition = 0x464C4583 ∧
      (callers firstPages mappedImage).out (shellCalls calls) (readInto 2 0x08000000) =
        .reply (.done (-1) []) ∧
      ¬∀ f, mappedImage.session 0 2 (shellMoves calls) = some f →
        ((shellCalls calls).kernel.files 0 2).filePosition =
          min f.reader.asked (mappedImage.file f).length := by
  intro calls
  have hsession : (mappedImage.session 0 2 (shellMoves calls)).map (fun f =>
      (f.reader.asked,(mappedImage.file f).length)) = some (4,40) := by decide +kernel
  have hposition : ((shellCalls calls).kernel.files 0 2).filePosition = 0x464C4583 := by
    decide +kernel
  have hcalls : ∀ c ∈ calls, c.base.GoodRead :=
    List.forall_mem_cons.mpr ⟨trivial,
      List.forall_mem_singleton.mpr (readInto_goodRead 2 (by decide))⟩
  refine ⟨mappedImage_wellFormed,hcalls,hsession,hposition,by decide +kernel,?_⟩
  intro hall
  obtain ⟨f,hf,hasked⟩ := Option.map_eq_some_iff.mp hsession
  have hwrong := hall f hf
  rw [hposition, (Prod.mk.inj hasked).1, (Prod.mk.inj hasked).2] at hwrong
  exact absurd hwrong (by decide)

end GameOfThreads
