import GameOfThreads.Machine.Memory
import Mathlib.Algebra.Order.Ring.Int
import Mathlib.Tactic.Linarith

/-! The read-only file system. An image is memory: the boot block at `modStart`, one inode
in each of the 4 kB blocks after it, then the data blocks. Field values are whatever the
bytes say, so a malformed image is an image like any other. -/
namespace GameOfThreads
open Machine

def fourKB : ℕ := 4096
def numDir : ℕ := 63
def nameLen : ℕ := 32
def datbSize : ℕ := 1023

/-- The memory holding the image, and the address of its boot block. -/
structure FileSystem where
  mem : ℕ → UInt8
  modStart : ℕ

/-- The 64 bytes of a directory entry: 32 of name, the file type, the inode number and 24
reserved ones. -/
structure Dentry where
  bytes : ℕ → UInt8

namespace Dentry
def filename (d : Dentry) : ℕ → UInt8 := d.bytes
def filetype (d : Dentry) : ℤ := i32 (word d.bytes 32)
def inodeNum (d : Dentry) : ℤ := i32 (word d.bytes 36)
end Dentry

namespace FileSystem
variable (fs : FileSystem)

/-- The byte at a 32-bit address. -/
def byteAt (a : ℤ) : UInt8 := fs.mem (u32 a)

/-- The signed 32-bit field at an address. -/
def field (a : ℤ) : ℤ := i32 (word (fun i => fs.byteAt (a+i)) 0)

def dirCount : ℤ := fs.field fs.modStart
def inodeCount : ℤ := fs.field (fs.modStart+4)
def dataCount : ℤ := fs.field (fs.modStart+8)

/-- Slot `i` of the boot block's directory table. -/
def directory (i : ℕ) : Dentry := ⟨fun j => fs.byteAt (fs.modStart+64+64*i+j)⟩

def inodeAddr : ℕ := u32 (fs.modStart+fourKB)
def dataAddr : ℕ := u32 (fs.modStart+fs.inodeCount*fourKB+fourKB)

/-- The length field of inode `inode`. -/
def inodeLength (inode : ℕ) : ℤ := fs.field (fs.inodeAddr+fourKB*inode)

/-- Slot `k` of the block table of inode `inode`. -/
def dataBlockNum (inode k : ℕ) : ℤ := fs.field (fs.inodeAddr+fourKB*inode+4+4*k)

/-- Byte `j` of the data block with a given number. -/
def dataByte (block : ℤ) (j : ℕ) : UInt8 := fs.byteAt (fs.dataAddr+fourKB*block+j)

/-- Byte `i` of a file, found through its block table. -/
def fileByte (inode i : ℕ) : UInt8 :=
  fs.dataByte (fs.dataBlockNum inode (i/fourKB)) (i%fourKB)

def readDentryByName (fname : Option (List UInt8)) : Option Dentry :=
  match fname with
  | none => none
  | some fname =>
    let nameLength := i32 (strlen fname)
    if nameLength > nameLen ∨ nameLength = 0 then none
    else ((List.range numDir).find? fun i =>
      strncmp (fs.directory i).filename (cstring fname) nameLen = 0).map fs.directory

/-- The result is written into `d`: the name by an unbounded string copy, then two fields. -/
def readDentryByIndex (index : ℕ) (d : Dentry) : Option Dentry :=
  if index ≥ u32 fs.inodeCount then none
  else
    let named := strcpy d.bytes (fs.directory index).filename
    let bytes := fun i => if 32 ≤ i ∧ i < 40 then (fs.directory index).bytes i else named i
    some ⟨bytes⟩

/-- The copy loop of read_data: the value returned, and the bytes stored from the start of
the buffer on. A bad block number returns at once, with the bytes before it stored. -/
def readLoop (inode : ℕ) : (length offset : ℕ) → (readcount : ℤ) → ℤ × List UInt8
  | 0,_,readcount => (readcount,[])
  | length+1,offset,readcount =>
    let curBlock := offset/fourKB
    if fs.dataBlockNum inode curBlock > fs.dataCount then (-1,[])
    else
      let byte := fs.dataByte (fs.dataBlockNum inode curBlock) (offset%fourKB)
      let rest := readLoop inode length ((offset+1) % 4294967296) (i32 (readcount+1))
      (rest.1,byte :: rest.2)

/-- The arguments are unsigned 32-bit values, so a length field is compared as unsigned. -/
def readData (inode offset : ℕ) (null : Bool) (length : ℕ) : ℤ × List UInt8 :=
  if inode ≥ u32 fs.inodeCount ∨ null then (-1,[])
  else if length = 0 then (0,[])
  else if offset > u32 (fs.inodeLength inode) then (-1,[])
  else if offset = u32 (fs.inodeLength inode) then (0,[])
  else if (fs.inodeLength inode).tdiv fourKB > datbSize then (-1,[])
  else
    let length :=
      if u32 (fs.inodeLength inode) < (length+offset) % 4294967296 then
        u32 (fs.inodeLength inode-offset)
      else length
    fs.readLoop inode length offset 0

end FileSystem
end GameOfThreads
