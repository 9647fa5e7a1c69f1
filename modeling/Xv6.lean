import Xv6.Proofs.CrashAtomicity
import Xv6.Proofs.LogReservation
import Xv6.Proofs.LogDrain
import Xv6.Proofs.BlockOwnership
import Xv6.Proofs.OneCpu
import Xv6.Proofs.LostWakeup
import Xv6.Proofs.KillTarget
import Xv6.Proofs.PipeFifo
import Xv6.Proofs.PipeWakeup
import Xv6.Proofs.PageOwnership
import Xv6.Proofs.AddressBound
import Xv6.Proofs.ConsoleRefinement
import Xv6.Proofs.SharedWrite
import Xv6.Proofs.ForkIsolation
import Xv6.Proofs.OrphanRecovery
import Xv6.Proofs.DenseFiles
import Xv6.Proofs.DirectoryWrites
import Xv6.Proofs.BetweenCalls
import Xv6.Proofs.FileContents
import Xv6.Proofs.ShortWrite
import Xv6.Proofs.PageTableMap
import Xv6.Proofs.FailedExec
import Xv6.Proofs.ExecSafety
import Xv6.Proofs.ExecImage
import Xv6.Proofs.ExecArguments
import Xv6.Proofs.ShellGrammar
import Xv6.Proofs.MallocHeap
import Xv6.Proofs.UserCopies
import Xv6.Proofs.CopyString
import Xv6.Proofs.SbrkSpec
import Xv6.Proofs.ReadBounds
import Xv6.Proofs.ReadLoss
import Xv6.Proofs.WriteChunk
import Xv6.Proofs.DirectoryMap
import Xv6.Proofs.PathResolution
import Xv6.Proofs.RegexMatch
import Xv6.Proofs.GrepLines
import Xv6.Proofs.PrintfNumbers
import Xv6.Proofs.TextCount
import Xv6.Proofs.MallocMemory
import Xv6.Proofs.ShellWords
import Xv6.Proofs.Redirections
import Xv6.Proofs.Pipelines
import Xv6.Proofs.BufferList
import Xv6.Proofs.StringCopy
import Xv6.Proofs.Interrupts
import Xv6.Proofs.SleepLock
import Xv6.Proofs.Memmove
