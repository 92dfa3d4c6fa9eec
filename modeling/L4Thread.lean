import L4Thread.Theory.Activation
import L4Thread.Theory.Aggregate
import L4Thread.Theory.Asid
import L4Thread.Theory.Attrib
import L4Thread.Theory.Branch
import L4Thread.Theory.ControlFrame
import L4Thread.Theory.CopyLimit
import L4Thread.Theory.Deletion
import L4Thread.Theory.Derivation
import L4Thread.Theory.Exregs
import L4Thread.Theory.FindNext
import L4Thread.Theory.Fpage
import L4Thread.Theory.FreeList
import L4Thread.Theory.Functions
import L4Thread.Theory.Handshake
import L4Thread.Theory.ItePointer
import L4Thread.Theory.KernelMappings
import L4Thread.Theory.MapRange
import L4Thread.Theory.Matching
import L4Thread.Theory.MdbFrames
import L4Thread.Theory.MessageCopy
import L4Thread.Theory.NullSafe
import L4Thread.Theory.PageTable
import L4Thread.Theory.Pagefault
import L4Thread.Theory.ParseType
import L4Thread.Theory.Phi
import L4Thread.Theory.PointerEq
import L4Thread.Theory.Priority
import L4Thread.Theory.Privilege
import L4Thread.Theory.Quantum
import L4Thread.Theory.Queueing
import L4Thread.Theory.ReadOverWrite
import L4Thread.Theory.Readmem
import L4Thread.Theory.ReadyQueues
import L4Thread.Theory.Scheduler
import L4Thread.Theory.Sigma0Mapnode
import L4Thread.Theory.SpaceControl
import L4Thread.Theory.Stubs
import L4Thread.Theory.Timeout
import L4Thread.Theory.Transfer
import L4Thread.Theory.TransferEnds
import L4Thread.Theory.UnmapFpage
import L4Thread.Theory.Unwind
import L4Thread.Theory.UnwindEnds
import L4Thread.Theory.UtcbArea
import L4Thread.Theory.UtcbCheck
import L4Thread.Theory.UtcbMapping
import L4Thread.Theory.Wakeup
