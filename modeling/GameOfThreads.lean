import GameOfThreads.ProcessInvariants
import GameOfThreads.ContextSwitch
import GameOfThreads.ExecuteFailure
import GameOfThreads.ExitStatus
import GameOfThreads.DescriptorRuns
import GameOfThreads.FileReading
import GameOfThreads.KeyboardBuffer
import GameOfThreads.CharacterOutput
import GameOfThreads.ScreenIsolation
import GameOfThreads.MappedReads
import GameOfThreads.FailedReads
import GameOfThreads.Directory
import GameOfThreads.ProgramLoading
import GameOfThreads.CallerRuns
import GameOfThreads.VideoWindow
import GameOfThreads.LineEditing
import GameOfThreads.InterruptedReads
import GameOfThreads.DirectoryLookup
import GameOfThreads.Arguments
import GameOfThreads.CursorRegisters
import GameOfThreads.UpDown
import GameOfThreads.PendingReads
import GameOfThreads.Erasing
import GameOfThreads.Modifiers
import GameOfThreads.RtcRate
import GameOfThreads.RtcReads
import GameOfThreads.BlankCommands
import GameOfThreads.BootConsole
import GameOfThreads.Moves
import GameOfThreads.Numbers
import GameOfThreads.UserMemory
import GameOfThreads.Interrupts
import GameOfThreads.Preemption
