import GameOfThreads.FileSystem
import GameOfThreads.Keys
import GameOfThreads.Rtc

/-! The system calls on the caller's descriptors and arguments: read, write, open, close,
getargs and vidmap, with the operations of the four tables that they dispatch to. The
caller is always the process of the running terminal. -/
namespace GameOfThreads
open Machine

/-- How a system call comes back: with a value and the bytes stored through its output
pointer, or not yet. -/
inductive Reply
  | done (value : ℤ) (bytes : List UInt8)
  | blocked
  deriving DecidableEq, Repr

def PCB.setDes (fd : ℕ) (des : FileDes) (pcb : PCB) : PCB :=
  { pcb with fileDesArray := Function.update pcb.fileDesArray fd des }

/-- Descriptor `fd` of the caller. -/
def Kernel.des (k : Kernel) (fd : ℕ) : FileDes := (k.pcb k.running).fileDesArray fd

def Kernel.setDes (fd : ℕ) (des : FileDes) (k : Kernel) : Kernel :=
  k.onPcb k.running (PCB.setDes fd des)

def fileRead (fs : FileSystem) (fd : ℤ) (null : Bool) (nbytes : ℤ) (k : Kernel) :
    (ℤ × List UInt8) × Kernel :=
  if nbytes < 0 ∨ null ∨ fd < fileStart ∨ fd ≥ maxFile then ((-1,[]),k)
  else
    let des := k.des fd.toNat
    if des.flags = 1 then
      let r := fs.readData (u32 des.inode) (u32 des.filePosition) null (u32 nbytes)
      (r,k.setDes fd.toNat { des with filePosition := i32 (des.filePosition+r.1) })
    else ((-1,[]),k)

/-- The copy loop of directory_read: the index it stops at and the bytes it has stored, the
terminator included. -/
def copyName (name : ℕ → UInt8) : (n index : ℕ) → ℤ × List UInt8
  | 0,index => (index,[])
  | n+1,index =>
    if name index = noke then (index,[noke])
    else
      let rest := copyName name n (index+1)
      (rest.1,name index :: rest.2)

/-- The number of bytes of a name that a directory read of `nbytes` may copy. -/
def nameLimit (nbytes : ℤ) : ℕ := if u32 nbytes < nameLen then u32 nbytes else nameLen

def directoryRead (fs : FileSystem) (fd : ℤ) (null : Bool) (nbytes : ℤ) (cpu : Cpu)
    (k : Kernel) : (ℤ × List UInt8) × Kernel :=
  if fd < fileStart ∨ fd > maxFile ∨ null ∨ nbytes ≤ 0 then ((-1,[]),k)
  else
    let des := k.des fd.toNat
    if u32 des.filePosition > u32 fs.dirCount then ((0,[]),k)
    else
      match fs.readDentryByIndex (u32 des.filePosition) ⟨cpu.stack⟩ with
      | none => ((-1,[]),k)
      | some dentry =>
        (copyName dentry.filename (nameLimit nbytes) 0,
          k.setDes fd.toNat { des with filePosition := i32 (des.filePosition+1) })

def terminalWrite (fd : ℤ) (buf : Option (ℕ → UInt8)) (nbytes : ℤ) (k : Kernel) : ℤ × Kernel :=
  match buf with
  | none => (-1,k)
  | some buf =>
    if nbytes < 0 ∨ fd < 0 ∨ fd ≥ maxFile ∨ fd = 0 then (-1,k)
    else (nbytes,(List.range nbytes.toNat).foldl (fun k i => termPutc (buf i) k.currentTerm k) k)

/-- terminal_read as its caller sees it: completed at once when Enter was pressed before. -/
def terminalRead (null : Bool) (nbytes : ℤ) (k : Kernel) : Reply × Kernel :=
  match terminalReadStart null nbytes k with
  | (none,k) => (.done (-1) [],k)
  | (some limit,k) =>
    if (k.terminal k.currentTerm).enterFlag = 0 then
      (.blocked,{ k with waiting := Function.update k.waiting k.running (some (.terminal limit)) })
    else
      let r := terminalReadFinish limit k
      (.done r.1.length r.1,r.2)

def read (fs : FileSystem) (fd : ℤ) (null : Bool) (nbytes : ℤ) (cpu : Cpu) (k : Kernel) :
    Reply × Kernel :=
  if fd < 0 ∨ fd ≥ maxFile ∨ fd = 1 ∨ null then (.done (-1) [],k)
  else if (k.des fd.toNat).flags = 0 then (.done (-1) [],k)
  else
    match (k.des fd.toNat).opTable with
    | .rtcOps =>
      match readRtc k with
      | some (value,k) => (.done value [],k)
      | none => (.blocked,{ k with waiting := Function.update k.waiting k.running (some .rtc) })
    | .fileOps => let r := fileRead fs fd null nbytes k; (.done r.1.1 r.1.2,r.2)
    | .directoryOps => let r := directoryRead fs fd null nbytes cpu k; (.done r.1.1 r.1.2,r.2)
    | .stdOps => terminalRead null nbytes k
    | .null => (.done (-1) [],k)

/-- A blocked read looks at its flag again when its process has the processor. -/
def resume (k : Kernel) : Reply × Kernel :=
  let free (k : Kernel) := { k with waiting := Function.update k.waiting k.running none }
  match k.waiting k.running with
  | none => (.blocked,k)
  | some (.terminal limit) =>
    if (k.terminal k.currentTerm).enterFlag = 0 then (.blocked,k)
    else
      let r := terminalReadFinish limit k
      (.done r.1.length r.1,free r.2)
  | some .rtc =>
    match readRtc k with
    | some (value,k) => (.done value [],free k)
    | none => (.blocked,k)

def write (fd : ℤ) (buf : Option (ℕ → UInt8)) (nbytes : ℤ) (k : Kernel) : Reply × Kernel :=
  if fd < 0 ∨ fd ≥ maxFile ∨ fd = 0 ∨ buf.isNone then (.done (-1) [],k)
  else if (k.des fd.toNat).flags = 0 then (.done (-1) [],k)
  else
    match (k.des fd.toNat).opTable with
    | .rtcOps => let r := writeRtc buf nbytes k; (.done r.1 [],r.2)
    | .fileOps => (.done (-1) [],k)
    | .directoryOps => (.done (-1) [],k)
    | .stdOps => let r := terminalWrite fd buf nbytes k; (.done r.1 [],r.2)
    | .null => (.done (-1) [],k)

/-- What open writes into the descriptor for a directory entry; `none` is an unsupported
file type. Members that a case does not mention keep what an earlier use left there. -/
def openedDes (dentry : Dentry) (des : FileDes) : Option FileDes :=
  if dentry.filetype = 0 then
    some { des with opTable := .rtcOps, filePosition := 0, flags := 1 }
  else if dentry.filetype = 1 then
    some { des with opTable := .directoryOps, filePosition := 0, flags := 1 }
  else if dentry.filetype = 2 then
    some { opTable := .fileOps, inode := dentry.inodeNum, filePosition := 0, flags := 1 }
  else none

/-- The first descriptor from `FILE_START` on that is not present. -/
def Kernel.freeDes (k : Kernel) : Option ℕ :=
  [2,3,4,5,6,7].find? fun fd => (k.des fd).flags = 0

/-- The open operation of a table; of those reached from the system call only the clock's
does anything. -/
def OpTable.open (table : OpTable) (k : Kernel) : Kernel :=
  match table with
  | .rtcOps => (openRtc k).2
  | _ => k

/-- The end of open, with the descriptor that it has found free and what goes into it. -/
def openAt (fd : ℕ) (k : Kernel) : Option FileDes → Reply × Kernel
  | none => (.done (-1) [],k)
  | some des => (.done fd [],des.opTable.open (k.setDes fd des))

def sysOpen (fs : FileSystem) (filename : Option (List UInt8)) (k : Kernel) : Reply × Kernel :=
  match fs.readDentryByName filename with
  | none => (.done (-1) [],k)
  | some dentry =>
    match k.freeDes with
    | none => (.done (-1) [],k)
    | some fd => openAt fd k (openedDes dentry (k.des fd))

def close (fd : ℤ) (k : Kernel) : Reply × Kernel :=
  if fd < fileStart ∨ fd ≥ maxFile then (.done (-1) [],k)
  else if (k.des fd.toNat).flags = 0 then (.done (-1) [],k)
  else (.done 0 [],k.setDes fd.toNat { k.des fd.toNat with flags := 0 })

/-- The argument string held in a PCB. -/
def PCB.argString (pcb : PCB) : List UInt8 :=
  ((List.range 128).map pcb.args).takeWhile (· ≠ noke)

def getargs (null : Bool) (nbytes : ℤ) (k : Kernel) : Reply × Kernel :=
  if null ∨ nbytes < 0 then (.done (-1) [],k)
  else
    let args := (k.pcb k.running).argString
    if args.length = 0 ∨ u32 nbytes < args.length then (.done (-1) [],k)
    else (.done 0 (args++[noke]),k)

/-- The four bytes of a 32-bit word in memory order. -/
def wordBytes (n : ℕ) : List UInt8 :=
  [n,n/256,n/65536,n/16777216].map fun b => (b % 256).toUInt8

def vidmap (screenStart : ℕ) (k : Kernel) : Reply × Kernel :=
  if screenStart < mem128 ∨ screenStart > mem132 then (.done (-1) [],k)
  else
    let address := (k.terminal k.currentTerm).termVideoMem
    (.done (i32 address) (wordBytes address),k)

end GameOfThreads
