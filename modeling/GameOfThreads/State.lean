import GameOfThreads.Machine.Memory
import Mathlib.Logic.Function.Basic

/-! The data of the kernel: terminals, process control blocks, the process table and the
video memory behind the page table of the terminals. Fields carry the source's values; an
unsigned 8-bit field is a natural number whose wraps are written where it changes. -/
namespace GameOfThreads
open Machine

def numTerm : ℕ := 3
def keyBuffSize : ℕ := 128
def maxHist : ℕ := 3
def maxNumProc : ℕ := 6
def maxFile : ℕ := 8
def fileStart : ℕ := 2
def numCols : ℕ := 80
def numRows : ℕ := 25
def pagesSize : ℕ := 4096

def mem32 : ℕ := 0x2000000
def mem128 : ℕ := 0x8000000
def mem132 : ℕ := 0x8400000
def fourMB : ℕ := 0x400000
def eightMB : ℕ := 0x800000
def kb8 : ℕ := 0x2000
def topOfKernel : ℕ := 0x800000
def videoAddr : ℕ := 0xB8000
def progImageLocation : ℕ := 0x08048000

def space : UInt8 := 32
def newline : UInt8 := 10
def carriage : UInt8 := 13
def noke : UInt8 := 0

/-- The operation tables; `null` is the content of memory never written. -/
inductive OpTable
  | null
  | rtcOps
  | fileOps
  | directoryOps
  | stdOps
  deriving DecidableEq, Repr

structure FileDes where
  opTable : OpTable
  inode : ℤ
  filePosition : ℤ
  flags : ℤ
  deriving DecidableEq, Repr

structure PCB where
  fileDesArray : ℕ → FileDes
  pidNum : ℕ
  thisEsp : ℕ
  thisEbp : ℕ
  haltStat : ℕ
  parentPidNum : ℕ
  parEsp : ℕ
  parEbp : ℕ
  args : ℕ → UInt8

structure Terminal where
  screenX : ℕ
  screenY : ℕ
  keyboardBuffer : ℕ → UInt8
  keyboardBufIdx : ℕ
  termVideoMem : ℕ
  process : ℕ
  enterFlag : ℕ
  readWanted : ℕ
  color : UInt8
  historyBuf : ℕ → ℕ → UInt8
  histPtr : ℕ
  histChk : ℕ
  histFill : ℕ
  histCnt : ℕ

/-- Physical memory and the page table of the video window at 132 MB. `cells` and `faults`
only record: the indices of the cells stored so far by the screen routines, and the addresses
at which a store has faulted. What the kernel does after a fault is another matter. -/
structure Video where
  phys : ℕ → UInt8
  pageTabArrayVideo : ℕ → ℕ
  cells : List ℕ
  faults : List ℕ

/-- Where a blocked call waits: the locals of terminal_read, or the loop of read_rtc. -/
inductive Wait
  | terminal (limit : ℕ)
  | rtc
  deriving DecidableEq, Repr

/-- The global variables and the machine state that they govern. The memory at
`get_pcb_addr_C(pid)` is `pcb pid`; of the page directory only the user entry changes after
initialisation. `waiting` stands for the kernel stack of a process blocked in a read;
`keyStores` and `histCopies` only record what the keyboard routines store. -/
structure Kernel where
  terminal : ℕ → Terminal
  currentTerm : ℕ
  viewingTerm : ℕ
  termsOn : ℕ
  pcbInUse : ℕ → ℕ
  totalProgs : ℕ → ℕ
  processCnt : ℕ
  pcb : ℕ → PCB
  pageDirUser : ℕ
  tssEsp0 : ℕ
  interrupts : Bool
  video : Video
  bootX : ℤ
  bootY : ℤ
  cursorLow : ℕ
  cursorHigh : ℕ
  capFlag : UInt8
  shiftFlag : UInt8
  altFlag : UInt8
  ctlFlag : UInt8
  numFlag : UInt8
  rtcFlag : ℕ → ℕ
  rate : ℕ
  registerA : ℕ
  waiting : ℕ → Option Wait
  keyStores : List ℕ
  histCopies : List ℕ

/-- What a kernel entry finds on the machine: the stack registers at the point where they
are stored, and the previous contents of the uninitialised local buffers. -/
structure Cpu where
  esp : ℕ
  ebp : ℕ
  stack : ℕ → UInt8

namespace Kernel
variable (k : Kernel)

/-- The process of the running terminal: what the system calls take as their caller. -/
def running : ℕ := (k.terminal k.currentTerm).process

def onTerminal (t : ℕ) (f : Terminal → Terminal) : Kernel :=
  { k with terminal := Function.update k.terminal t (f (k.terminal t)) }

def onPcb (p : ℕ) (f : PCB → PCB) : Kernel :=
  { k with pcb := Function.update k.pcb p (f (k.pcb p)) }

@[simp] theorem onTerminal_terminal_self (t : ℕ) (f : Terminal → Terminal) :
    (k.onTerminal t f).terminal t = f (k.terminal t) := by simp [onTerminal]

theorem onTerminal_terminal (t u : ℕ) (f : Terminal → Terminal) :
    (k.onTerminal t f).terminal u = if u = t then f (k.terminal u) else k.terminal u := by
  by_cases h : u = t
  · subst h; simp [onTerminal]
  · simp [onTerminal, h]

@[simp] theorem onPcb_pcb_self (p : ℕ) (f : PCB → PCB) :
    (k.onPcb p f).pcb p = f (k.pcb p) := by simp [onPcb]

theorem onPcb_pcb (p q : ℕ) (f : PCB → PCB) :
    (k.onPcb p f).pcb q = if q = p then f (k.pcb q) else k.pcb q := by
  by_cases h : q = p
  · subst h; simp [onPcb]
  · simp [onPcb, h]

end Kernel
end GameOfThreads
