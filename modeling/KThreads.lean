import KThreads.Reaping
import KThreads.Join
import KThreads.Children
import KThreads.OpenFiles
import KThreads.UserMemory
import KThreads.Pipes
import KThreads.Kill
import KThreads.LastThread
import KThreads.WorkingDirectory
import KThreads.Semaphores
import KThreads.TicketLock
import KThreads.SleepLocks
import KThreads.Isolation
import KThreads.GrowProc
import KThreads.ExecIdentity
import KThreads.LogCapacity
import KThreads.Buffers
import KThreads.ConsoleStream
import KThreads.SharedFile
import KThreads.Directories
import KThreads.UserStrings
import KThreads.ForkImage
import KThreads.PageOwnership
import KThreads.UserBuffers
import KThreads.PageRemoval
import KThreads.FileWrites
import KThreads.IntQueue
import KThreads.Multiprocessor
import KThreads.Grep
import KThreads.ShellStrings
import KThreads.ImageFiles
import KThreads.Allocator
import KThreads.RequestSizes
import KThreads.FailedCalls
import KThreads.Memmove
