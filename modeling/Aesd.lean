import Aesd.Library.Machine
import Aesd.Library.Lock
import Aesd.Library.Chain
import Aesd.Driver.Lookup
import Aesd.Driver.Files
import Aesd.Driver.Openers
import Aesd.Driver.Reader
import Aesd.Driver.Tasks
import Aesd.Driver.Progress
import Aesd.Driver.FullFlag
import Aesd.Driver.Integrity
import Aesd.Driver.Seek
import Aesd.Driver.SeekRace
import Aesd.Driver.Ownership
import Aesd.Driver.Cleanup
import Aesd.Driver.Module
import Aesd.Driver.Pending
import Aesd.Driver.Failure
import Aesd.Driver.EndOfFile
import Aesd.Driver.Locking
import Aesd.Server.HandleClient
import Aesd.Server.Descriptors
import Aesd.Server.Transfers
import Aesd.Server.Store
import Aesd.Server.Session
import Aesd.Server.EndOfPacket
import Aesd.Server.Meaning
import Aesd.Server.Grammar
import Aesd.Server.Segmentation
import Aesd.Server.Threads
import Aesd.Server.SystemCalls
import Aesd.Server.ThreadList
import Aesd.Server.Registry
import Aesd.Server.JoinThreads
import Aesd.Server.Shutdown
import Aesd.Server.Isolation
import Aesd.Server.Waiting
import Aesd.Server.System
import Aesd.Server.Resources
import Aesd.Server.OldServer
import Aesd.Server.AppendLaw
import Aesd.Server.FileShape
import Aesd.Server.ReplyLoop
import Aesd.Server.Service
import Aesd.Server.RejectedSeek
import Aesd.Server.DeviceService
import Aesd.Examples.Threading
