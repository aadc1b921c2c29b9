import GameOfThreads.FileReading
import GameOfThreads.Machine.Stores
import GameOfThreads.MappedReads
import GameOfThreads.Paging
import GameOfThreads.UserPointers

/-! Where the kernel stores for its callers. read, getargs and vidmap store at any address that
is not NULL, and the page tables send each byte to a frame of user code, to a screen or into the
kernel, where it may hit a descriptor; or they let it fault. As long as they send none into the
kernel, the calls do what they do in a model without addresses. -/
namespace GameOfThreads
open Machine

/-! ### Stores of the kernel -/

/-- The bytes of a file_des: the pointers of its table, and three fields. -/
def fileDesSize : ℕ := 28

/-- Byte `i` of a 32-bit field takes another value. -/
def setByte (i : ℕ) (b : UInt8) (v : ℤ) : ℤ :=
  i32 (u32 v+((b.toNat : ℤ)-(u32 v/256^i % 256 : ℕ))*256^i)

/-- A store into a descriptor. With the pointers of its table it could be anything. -/
def FileDes.store (i : ℕ) (b : UInt8) (des : FileDes) : Option FileDes :=
  if i < 16 then none
  else if i < 20 then some { des with inode := setByte (i-16) b des.inode }
  else if i < 24 then some { des with filePosition := setByte (i-20) b des.filePosition }
  else some { des with flags := setByte (i-24) b des.flags }

/-- A store into the memory of the kernel: into a descriptor of a process, or into something
that is not modelled. -/
def Kernel.storeKernel (x : ℕ) (b : UInt8) (k : Kernel) : Option Kernel :=
  let p := (topOfKernel-1-x)/kb8
  let i := x-getPcbAddr p
  if p < maxNumProc ∧ i < maxFile*fileDesSize then
    (((k.pcb p).fileDesArray (i/fileDesSize)).store (i % fileDesSize) b).map fun des =>
      k.onPcb p (PCB.setDes (i/fileDesSize) des)
  else none

/-- Stores outside of the kernel. -/
def Kernel.pokes (stores : List (ℕ × UInt8)) (k : Kernel) : Kernel :=
  { k with video := { k.video with phys := overwrite stores k.video.phys } }

/-- How a copy to an address of the caller ends: all bytes are stored, one has faulted, or one
has gone where the model cannot follow. -/
inductive Copied
  | done (k : Kernel)
  | fault (k : Kernel)
  | lost

/-- Bytes stored at 32-bit addresses from `a` on. -/
def Kernel.copyOut (A : PageArrays) : (a : ℕ) → List UInt8 → Kernel → Copied
  | _,[],k => .done k
  | a,b :: bytes,k =>
    match (k.pageMap A).translate ⟨false,true⟩ (a % 4294967296) with
    | none => .fault k
    | some x =>
      if fourMB ≤ x ∧ x < eightMB then
        match k.storeKernel x b with
        | none => .lost
        | some k => k.copyOut A (a+1) bytes
      else (k.pokes [(x,b)]).copyOut A (a+1) bytes

/-! ### Calls with a destination -/

/-- What a call comes to. -/
inductive Served
  | done (value : ℤ) (bytes : List UInt8) (k : Kernel)
  | blocked (k : Kernel)
  | fault (k : Kernel)
  | lost

/-- A call that stores nothing. -/
def Served.of : Reply × Kernel → Served
  | (.done value bytes,k) => .done value bytes k
  | (.blocked,k) => .blocked k

/-- A call that stores its bytes and then does the rest of its work. -/
def storing (A : PageArrays) (dest : ℕ) (value : ℤ) (bytes : List UInt8)
    (rest : Kernel → Kernel) (k : Kernel) : Served :=
  match k.copyOut A dest bytes with
  | .done k => .done value bytes (rest k)
  | .fault k => .fault k
  | .lost => .lost

/-- The addresses that the kernel can load from. -/
def Kernel.addressMap (A : PageArrays) (k : Kernel) : AddressMap where
  mapped a := ((k.pageMap A).translate ⟨false,false⟩ a).isSome
  null a ha := by
    have hpage : a/smallPage = 0 := by
      unfold smallPage
      omega
    have hwalk := walk_low A k (show a/smallPage/1024 = 0 by omega)
    rw [hpage, if_neg (by decide)] at hwalk
    rw [PageMap.translate_of_absent (hpage ▸ hwalk)]
    rfl

def Kernel.movePosition (fd : ℕ) (n : ℤ) (k : Kernel) : Kernel :=
  k.setDes fd { k.des fd with filePosition := i32 ((k.des fd).filePosition+n) }

def fileReadTo (A : PageArrays) (fs : FileSystem) (fd : ℤ) (dest : ℕ) (nbytes : ℤ) (k : Kernel) :
    Served :=
  if nbytes < 0 ∨ dest = 0 ∨ fd < fileStart ∨ fd ≥ maxFile then .done (-1) [] k
  else
    let des := k.des fd.toNat
    if des.flags = 1 then
      let r := fs.readDataIn (k.addressMap A) (u32 des.inode) (u32 des.filePosition) dest
        (u32 nbytes)
      let bytes := r.stored.map (fs.fileByte (u32 des.inode))
      match k.copyOut A dest bytes,r.value with
      | .lost,_ => .lost
      | .fault k,_ => .fault k
      | .done k,none => .fault k
      | .done k,some value => .done value bytes (k.movePosition fd.toNat value)
    else .done (-1) [] k

/-- directory_read, which copies the entry into a local before it stores the name. -/
def directoryReadTo (A : PageArrays) (fs : FileSystem) (fd : ℤ) (dest : ℕ) (nbytes : ℤ)
    (cpu : Cpu) (k : Kernel) : Served :=
  if fd < fileStart ∨ fd > maxFile ∨ dest = 0 ∨ nbytes ≤ 0 then .done (-1) [] k
  else
    let position := u32 (k.des fd.toNat).filePosition
    if position > u32 fs.dirCount then .done 0 [] k
    else if position < u32 fs.inodeCount ∧ fs.Overlong position then .lost
    else
      match fs.readDentryByIndex position ⟨cpu.stack⟩ with
      | none => .done (-1) [] k
      | some dentry =>
        let r := copyName dentry.filename (nameLimit nbytes) 0
        storing A dest r.1 r.2 (Kernel.movePosition fd.toNat 1) k

/-- terminal_read behind its loop on the flag, and what follows when it has returned. -/
def terminalReadEnd (A : PageArrays) (dest limit : ℕ) (after : Kernel → Kernel) (k : Kernel) :
    Served :=
  let bytes := (terminalReadFinish limit k).1
  storing A dest bytes.length bytes (fun k => after (terminalReadFinish limit k).2) k

def terminalReadTo (A : PageArrays) (dest : ℕ) (nbytes : ℤ) (k : Kernel) : Served :=
  match terminalReadStart (dest = 0) nbytes k with
  | (none,k) => .done (-1) [] k
  | (some limit,k) =>
    if (k.terminal k.currentTerm).enterFlag = 0 then
      .blocked
        { k with waiting := Function.update k.waiting k.running (some (.terminal limit)) }
    else terminalReadEnd A dest limit id k

def readTo (A : PageArrays) (fs : FileSystem) (fd : ℤ) (dest : ℕ) (nbytes : ℤ) (cpu : Cpu)
    (k : Kernel) : Served :=
  if fd < 0 ∨ fd ≥ maxFile ∨ fd = 1 ∨ dest = 0 then .done (-1) [] k
  else if (k.des fd.toNat).flags = 0 then .done (-1) [] k
  else
    match (k.des fd.toNat).opTable with
    | .rtcOps =>
      match readRtc k with
      | some (value,k) => .done value [] k
      | none => .blocked { k with waiting := Function.update k.waiting k.running (some .rtc) }
    | .fileOps => fileReadTo A fs fd dest nbytes k
    | .directoryOps => directoryReadTo A fs fd dest nbytes cpu k
    | .stdOps => terminalReadTo A dest nbytes k
    | .null => .done (-1) [] k

/-- A blocked read looks at its flag again. -/
def resumeTo (A : PageArrays) (dest : ℕ) (k : Kernel) : Served :=
  match k.waiting k.running with
  | some (.terminal limit) =>
    if (k.terminal k.currentTerm).enterFlag = 0 then .blocked k
    else terminalReadEnd A dest limit freed k
  | _ => .of (resume k)

/-- The bytes of an answer are stored, and nothing is left to do. -/
def answerTo (A : PageArrays) (dest : ℕ) : Reply × Kernel → Served
  | (.done value bytes,k) => storing A dest value bytes id k
  | (.blocked,k) => .blocked k

/-! ### The kernel and its callers -/

/-- An event, with the pointer that a call passes and what a page fault in the event would find
on the machine. -/
structure Call where
  op : Op
  dest : ℕ
  fault : Cpu

/-- The event without addresses. -/
def Call.base (c : Call) : Op :=
  match c.op with
  | .read fd _ nbytes cpu => .read fd (c.dest = 0) nbytes cpu
  | .getargs _ nbytes => .getargs (c.dest = 0) nbytes
  | .vidmap _ => .vidmap c.dest
  | op => op

/-- The kernel, the pointer of the read that a process waits in, and whether something has been
overwritten that the model does not have. -/
structure Callers where
  kernel : Kernel
  buffer : ℕ → ℕ
  lost : Bool

/-- A page fault goes to squash_exception. -/
def Callers.serve (fs : FileSystem) (dest : ℕ) (fault : Cpu) (s : Callers) :
    Served → Out × Callers
  | .done value bytes k => (.reply (.done value bytes),{ s with kernel := k })
  | .blocked k => (.reply .blocked,
      { s with kernel := k, buffer := Function.update s.buffer s.kernel.running dest })
  | .fault k => let r := squashException fs fault k; (r.1,{ s with kernel := r.2 })
  | .lost => (.quiet,{ s with lost := true })

/-- The pointer that an event stores through. -/
def Callers.pointer (s : Callers) (c : Call) : ℕ :=
  match c.op with
  | .resume => s.buffer s.kernel.running
  | _ => c.dest

/-- The kernel with the stores through the pointers of its callers. -/
def callers (A : PageArrays) (fs : FileSystem) : System Callers Call Out where
  step s c :=
    if s.lost then (.quiet,s)
    else
      match c.op with
      | .read fd _ nbytes cpu =>
        s.serve fs c.dest c.fault (readTo A fs fd c.dest nbytes cpu s.kernel)
      | .resume =>
        s.serve fs (s.pointer c) c.fault (resumeTo A (s.pointer c) s.kernel)
      | .getargs _ nbytes =>
        s.serve fs c.dest c.fault (answerTo A c.dest (getargs (c.dest = 0) nbytes s.kernel))
      | .vidmap _ => s.serve fs c.dest c.fault (answerTo A c.dest (vidmap c.dest s.kernel))
      | .execute command cpu =>
        let r := execute fs cpu command s.kernel
        if r.1 = .overrun then (.quiet,{ s with lost := true })
        else (.exec r.1,{ s with kernel := r.2 })
      | op => let r := step fs s.kernel op; (r.1,{ s with kernel := r.2 })

/-- The kernel can store to the addresses of a range, and none of them is its own. -/
def Kernel.Outside (A : PageArrays) (dest n : ℕ) (k : Kernel) : Prop :=
  ∀ i < n, ∃ x ∉ kernelFrame,
    (k.pageMap A).translate ⟨false,true⟩ ((dest+i) % 4294967296) = some x

/-- A read comes to the routine of a table. -/
def Kernel.Dispatches (fd : ℤ) (dest : ℕ) (table : OpTable) (k : Kernel) : Prop :=
  Dispatched fd dest k ∧ (k.des fd.toNat).opTable = table

/-! ### Copies outside of the kernel -/

@[simp] theorem pokes_files (l : List (ℕ × UInt8)) (k : Kernel) : (k.pokes l).files = k.files := rfl

/-- Where the bytes of a copy go. -/
def Kernel.places (A : PageArrays) (k : Kernel) : (a : ℕ) → List UInt8 → List (ℕ × UInt8)
  | _,[] => []
  | a,b :: bytes =>
    (((k.pageMap A).translate ⟨false,true⟩ (a % 4294967296)).getD 0,b) :: k.places A (a+1) bytes

section
variable (A : PageArrays) {dest : ℕ} {k : Kernel}

theorem places_pokes (l : List (ℕ × UInt8)) (bytes : List UInt8) :
    (k.pokes l).places A dest bytes = k.places A dest bytes := by
  induction bytes generalizing dest with
  | nil => rfl
  | cons b bytes ih => exact congrArg (_ :: ·) ih

/-- A copy outside of the kernel is done, and hits nothing that the kernel works on. -/
theorem copyOut_outside {bytes : List UInt8} (h : k.Outside A dest bytes.length) :
    k.copyOut A dest bytes = .done (k.pokes (k.places A dest bytes)) := by
  induction bytes generalizing dest k with
  | nil => rfl
  | cons b bytes ih =>
    obtain ⟨x,hx,htranslate⟩ := h 0 (Nat.zero_lt_succ _)
    rw [Nat.add_zero] at htranslate
    have hrest : (k.pokes [(x,b)]).Outside A (dest+1) bytes.length := by
      intro i hi
      rw [Nat.add_right_comm]
      exact h (i+1) (Nat.succ_lt_succ hi)
    rw [Kernel.copyOut, htranslate]
    dsimp only
    rw [if_neg (show ¬(fourMB ≤ x ∧ x < eightMB) from hx), ih hrest, places_pokes,
      Kernel.places, htranslate]
    rfl

theorem storing_outside {value : ℤ} {bytes : List UInt8} (rest : Kernel → Kernel)
    (h : k.Outside A dest bytes.length) : storing A dest value bytes rest k =
      .done value bytes (rest (k.pokes (k.places A dest bytes))) := by
  rw [storing, copyOut_outside A h]

theorem clearKeyBuf_pokes (term : ℕ) (l : List (ℕ × UInt8)) (k : Kernel) :
    clearKeyBuf term (k.pokes l) = (clearKeyBuf term k).pokes l := by
  have hstore : ∀ (k : Kernel) (i : ℕ),
      storeKey term i noke (k.pokes l) = (storeKey term i noke k).pokes l := fun _ _ => rfl
  have hloop : ∀ (indices : List ℕ) (k : Kernel),
      indices.foldl (fun k i => storeKey term i noke k) (k.pokes l) =
        (indices.foldl (fun k i => storeKey term i noke k) k).pokes l := by
    intro indices
    induction indices with
    | nil => exact fun _ => rfl
    | cons i indices ih =>
      intro k
      rw [List.foldl_cons, List.foldl_cons, hstore, ih]
  have hidx : ∀ k : Kernel, (k.pokes l).onTerminal term (Terminal.setIdx 0) =
      (k.onTerminal term (Terminal.setIdx 0)).pokes l := fun _ => rfl
  exact (congrArg (fun k : Kernel => k.onTerminal term (Terminal.setIdx 0)) (hloop _ k)).trans
    (hidx _)

theorem terminalReadFinish_pokes (limit : ℕ) (l : List (ℕ × UInt8)) (k : Kernel) :
    (terminalReadFinish limit (k.pokes l)).2 = (terminalReadFinish limit k).2.pokes l := by
  have hset : ∀ (k' : Kernel) (f : Terminal → Terminal),
      (k'.pokes l).onTerminal k.currentTerm f = (k'.onTerminal k.currentTerm f).pokes l :=
    fun _ _ => rfl
  have hterm : (k.pokes l).currentTerm = k.currentTerm := rfl
  rw [terminalReadFinish_eq, terminalReadFinish_eq, hterm, hset, clearKeyBuf_pokes, hset]

/-- The bytes that a reply hands out, in their places. -/
def Kernel.delivered (dest : ℕ) (r : Reply) (k : Kernel) : List (ℕ × UInt8) :=
  k.places A dest (Out.reply r).bytes

def Served.pokes (l : List (ℕ × UInt8)) : Served → Served
  | .done value bytes k => .done value bytes (k.pokes l)
  | .blocked k => .blocked (k.pokes l)
  | .fault k => .fault (k.pokes l)
  | .lost => .lost

variable {fs : FileSystem} {fd : ℤ} {nbytes : ℤ} {cpu : Cpu}

theorem fileReadTo_outside (hdest : dest ≠ 0)
    (houtside : k.Outside A dest (fileRead fs fd false nbytes k).1.2.length)
    (hloads : 0 ≤ nbytes → ((fs.readDataIn (k.addressMap A) (u32 (k.des fd.toNat).inode)
      (u32 (k.des fd.toNat).filePosition) dest (u32 nbytes)).value).isSome) :
    fileReadTo A fs fd dest nbytes k =
      .done (fileRead fs fd false nbytes k).1.1 (fileRead fs fd false nbytes k).1.2
        ((fileRead fs fd false nbytes k).2.pokes
          (k.places A dest (fileRead fs fd false nbytes k).1.2)) := by
  by_cases hargs : nbytes < 0 ∨ fd < fileStart ∨ fd ≥ maxFile
  · rw [fileRead, if_pos (by tauto), fileReadTo, if_pos (by tauto)]
    rfl
  have hargs₁ : ¬(nbytes < 0 ∨ dest = 0 ∨ fd < fileStart ∨ fd ≥ maxFile) := by tauto
  have hargs₂ : ¬(nbytes < 0 ∨ false = true ∨ fd < fileStart ∨ fd ≥ maxFile) := by tauto
  rw [fileRead, if_neg hargs₂] at houtside ⊢
  rw [fileReadTo, if_neg hargs₁]
  by_cases hflag : (k.des fd.toNat).flags = 1
  · obtain ⟨value,hvalue⟩ := Option.isSome_iff_exists.mp (hloads (by omega))
    have hread := FileSystem.readDataIn_value hdest hvalue
    simp only [if_pos hflag, hread] at houtside ⊢
    rw [copyOut_outside A houtside, hvalue]
    rfl
  · simp only [if_neg hflag]
    rfl

theorem directoryReadTo_outside (hdest : dest ≠ 0)
    (houtside : k.Outside A dest (directoryRead fs fd false nbytes cpu k).1.2.length)
    (hends : 0 < nbytes → u32 (k.des fd.toNat).filePosition ≤ u32 fs.dirCount →
      u32 (k.des fd.toNat).filePosition < u32 fs.inodeCount →
        ¬fs.Overlong (u32 (k.des fd.toNat).filePosition)) :
    directoryReadTo A fs fd dest nbytes cpu k =
      .done (directoryRead fs fd false nbytes cpu k).1.1
        (directoryRead fs fd false nbytes cpu k).1.2
        ((directoryRead fs fd false nbytes cpu k).2.pokes
          (k.places A dest (directoryRead fs fd false nbytes cpu k).1.2)) := by
  by_cases hargs : fd < fileStart ∨ fd > maxFile ∨ nbytes ≤ 0
  · rw [directoryRead, if_pos (by tauto), directoryReadTo, if_pos (by tauto)]
    rfl
  have hargs₁ : ¬(fd < fileStart ∨ fd > maxFile ∨ dest = 0 ∨ nbytes ≤ 0) := by tauto
  have hargs₂ : ¬(fd < fileStart ∨ fd > maxFile ∨ false = true ∨ nbytes ≤ 0) := by tauto
  by_cases hpast : u32 (k.des fd.toNat).filePosition > u32 fs.dirCount
  · have hread : directoryRead fs fd false nbytes cpu k = ((0,[]),k) :=
      (if_neg hargs₂).trans (if_pos hpast)
    rw [hread]
    exact (if_neg hargs₁).trans (if_pos hpast)
  have hend : ¬(u32 (k.des fd.toNat).filePosition < u32 fs.inodeCount ∧
      fs.Overlong (u32 (k.des fd.toNat).filePosition)) := fun h =>
    hends (by omega) (Nat.not_lt.mp hpast) h.1 h.2
  cases hentry : fs.readDentryByIndex (u32 (k.des fd.toNat).filePosition) ⟨cpu.stack⟩ with
  | none =>
    have hread : directoryRead fs fd false nbytes cpu k = ((-1,[]),k) :=
      (if_neg hargs₂).trans ((if_neg hpast).trans (by rw [hentry]))
    rw [hread]
    exact (if_neg hargs₁).trans ((if_neg hpast).trans ((if_neg hend).trans (by rw [hentry]; rfl)))
  | some dentry =>
    have hread : directoryRead fs fd false nbytes cpu k =
        (copyName dentry.filename (nameLimit nbytes) 0,Kernel.movePosition fd.toNat 1 k) :=
      (if_neg hargs₂).trans ((if_neg hpast).trans (by rw [hentry]; rfl))
    have hreadTo : directoryReadTo A fs fd dest nbytes cpu k =
        storing A dest (copyName dentry.filename (nameLimit nbytes) 0).1
          (copyName dentry.filename (nameLimit nbytes) 0).2 (Kernel.movePosition fd.toNat 1) k :=
      (if_neg hargs₁).trans ((if_neg hpast).trans ((if_neg hend).trans (by rw [hentry])))
    rw [hread] at houtside ⊢
    generalize copyName dentry.filename (nameLimit nbytes) 0 = name at *
    rw [hreadTo, storing_outside A _ houtside]
    rfl

theorem terminalReadEnd_outside {limit : ℕ} {after : Kernel → Kernel}
    (hafter : ∀ l k, after (Kernel.pokes l k) = (after k).pokes l)
    (houtside : k.Outside A dest (terminalReadFinish limit k).1.length) :
    terminalReadEnd A dest limit after k =
      .done (terminalReadFinish limit k).1.length (terminalReadFinish limit k).1
        ((after (terminalReadFinish limit k).2).pokes
          (k.places A dest (terminalReadFinish limit k).1)) := by
  rw [terminalReadEnd, storing_outside A _ houtside, terminalReadFinish_pokes, hafter]

theorem places_congr {k' : Kernel} (h : k'.pageMap A = k.pageMap A) (bytes : List UInt8) :
    k'.places A dest bytes = k.places A dest bytes := by
  induction bytes generalizing dest with
  | nil => rfl
  | cons b bytes ih => rw [Kernel.places, Kernel.places, h, ih]

theorem terminalReadStart_pageMap (null : Bool) (nbytes : ℤ) (k : Kernel) :
    (terminalReadStart null nbytes k).2.pageMap A = k.pageMap A := by
  unfold terminalReadStart
  split_ifs <;> rfl

theorem terminalReadTo_outside (hdest : dest ≠ 0)
    (houtside : k.Outside A dest (Out.reply (terminalRead false nbytes k).1).bytes.length) :
    terminalReadTo A dest nbytes k = (Served.of (terminalRead false nbytes k)).pokes
      (k.delivered A dest (terminalRead false nbytes k).1) := by
  have hmap := terminalReadStart_pageMap A false nbytes k
  unfold terminalRead at houtside ⊢
  rw [terminalReadTo, decide_eq_false hdest]
  cases hstart : terminalReadStart false nbytes k with
  | mk limit k₁ =>
  rw [hstart] at hmap houtside
  cases limit with
  | none => rfl
  | some limit =>
    by_cases hflag : (k₁.terminal k₁.currentTerm).enterFlag = 0
    · simp only [if_pos hflag]
      rfl
    · simp only [if_neg hflag] at houtside ⊢
      have houtside₁ : k₁.Outside A dest (terminalReadFinish limit k₁).1.length := by
        intro i hi
        rw [hmap]
        exact houtside i hi
      rw [terminalReadEnd_outside A (fun _ _ => rfl) houtside₁, places_congr A hmap]
      rfl

/-- A read that is handed on to no routine answers -1 in both models. -/
theorem readTo_refused (h : ¬Dispatched fd dest k) :
    readTo A fs fd dest nbytes cpu k = .done (-1) [] k ∧
      read fs fd (dest = 0) nbytes cpu k = (.done (-1) [],k) := by
  have hno : (fd < 0 ∨ fd ≥ maxFile ∨ fd = 1 ∨ dest = 0) ∨ (k.des fd.toNat).flags = 0 := by
    by_contra hno
    simp only [not_or] at hno
    obtain ⟨⟨hlow,hhigh,hstdout,hbuf⟩,hpresent⟩ := hno
    exact h ⟨by omega,by omega,hstdout,hbuf,hpresent⟩
  constructor
  · unfold readTo
    split_ifs with hargs hflags
    · rfl
    · rfl
    · exact absurd hno (not_or.mpr ⟨hargs,hflags⟩)
  · unfold read
    split_ifs with hargs hflags
    · rfl
    · rfl
    · simp only [decide_eq_true_eq] at hargs
      exact absurd hno (not_or.mpr ⟨hargs,hflags⟩)

theorem readTo_outside
    (houtside : k.Outside A dest
      (Out.reply (read fs fd (dest = 0) nbytes cpu k).1).bytes.length)
    (hloads : 0 ≤ nbytes → k.Dispatches fd dest .fileOps →
      ((fs.readDataIn (k.addressMap A) (u32 (k.des fd.toNat).inode)
        (u32 (k.des fd.toNat).filePosition) dest (u32 nbytes)).value).isSome)
    (hends : 0 < nbytes → k.Dispatches fd dest .directoryOps →
      u32 (k.des fd.toNat).filePosition ≤ u32 fs.dirCount →
        u32 (k.des fd.toNat).filePosition < u32 fs.inodeCount →
          ¬fs.Overlong (u32 (k.des fd.toNat).filePosition)) :
    readTo A fs fd dest nbytes cpu k = (Served.of (read fs fd (dest = 0) nbytes cpu k)).pokes
      (k.delivered A dest (read fs fd (dest = 0) nbytes cpu k).1) := by
  by_cases h : Dispatched fd dest k
  · have hargs : ¬(fd < 0 ∨ fd ≥ maxFile ∨ fd = 1 ∨ dest = 0) := by
      have := h.low
      have := h.high
      have := h.stdout
      have := h.buf
      omega
    have hto : readTo A fs fd dest nbytes cpu k = _ := (if_neg hargs).trans (if_neg h.present)
    rw [hto]
    rw [h.read_eq] at houtside ⊢
    cases htable : (k.des fd.toNat).opTable with
    | null => rfl
    | rtcOps =>
      dsimp only
      cases readRtc k with
      | none => rfl
      | some r => rfl
    | fileOps =>
      rw [htable] at houtside
      exact fileReadTo_outside A h.buf houtside fun hn => hloads hn ⟨h,htable⟩
    | directoryOps =>
      rw [htable] at houtside
      exact directoryReadTo_outside A h.buf houtside fun hn => hends hn ⟨h,htable⟩
    | stdOps =>
      rw [htable] at houtside
      exact terminalReadTo_outside A h.buf houtside
  · obtain ⟨hto,hread⟩ := readTo_refused A h
    rw [hread, hto]
    rfl

theorem resumeTo_outside
    (houtside : k.Outside A dest (Out.reply (resume k).1).bytes.length) :
    resumeTo A dest k = (Served.of (resume k)).pokes (k.delivered A dest (resume k).1) := by
  cases hwait : k.waiting k.running with
  | none =>
    have hresume : resume k = (.blocked,k) := by rw [resume, hwait]
    rw [resumeTo, hwait, hresume]
    rfl
  | some w =>
    cases w with
    | rtc =>
      have hto : resumeTo A dest k = .of (resume k) := by rw [resumeTo, hwait]
      rw [hto, resume, hwait]
      cases readRtc k with
      | none => rfl
      | some r => rfl
    | terminal limit =>
      by_cases hflag : (k.terminal k.currentTerm).enterFlag = 0
      · rw [resumeTo, hwait, resume_clear hwait hflag]
        exact if_pos hflag
      · rw [resume_set hwait hflag] at houtside ⊢
        have hto : resumeTo A dest k = terminalReadEnd A dest limit freed k := by
          rw [resumeTo, hwait]
          exact if_neg hflag
        rw [hto, terminalReadEnd_outside A (fun _ _ => rfl) houtside]
        rfl

theorem answerTo_outside {r : Reply × Kernel} (hr : r.2 = k)
    (houtside : k.Outside A dest (Out.reply r.1).bytes.length) :
    answerTo A dest r = (Served.of r).pokes (k.delivered A dest r.1) := by
  obtain ⟨reply,k'⟩ := r
  obtain rfl := hr
  cases reply with
  | done value bytes => exact storing_outside A id houtside
  | blocked => rfl

end

end GameOfThreads
