import Ride.CodeLib.Machine
import Ride.CodeLib.StoreBuffer
import Ride.CodeLib.Ring
import Ride.CodeLib.Window
import Ride.CodeLib.FreeList
import Ride.CodeLib.Path
import Ride.CodeLib.Words
import Ride.CodeLib.Getopt
import Ride.CodeLib.Utf8
import Ride.CodeLib.Json
import Ride.CodeLib.JsonStrings
import Ride.Event
import Ride.Queue.Model
import Ride.Queue.Refinement
import Ride.Ev.Submission
import Ride.Ev.SubmissionRun
import Ride.Ev.Sqpoll
import Ride.Ev.Completion
import Ride.Ev.LoopRun
import Ride.Hasher
import Ride.Bpf
import Ride.Bpf.Ring
import Ride.Watch.Stat
import Ride.Watch.Scope
import Ride.Cli
import Ride.Watch.Named
import Ride.Dispatch.Tokens
import Ride.Dispatch.RoundRobin
import Ride.Processor.Model
import Ride.Processor.Kernel
import Ride.Processor.Invariant
import Ride.Processor.KernelInv
import Ride.Processor.SlotInv
import Ride.Processor.Callbacks
import Ride.Processor.Requests
import Ride.Processor.Run
import Ride.Processor.Safety
import Ride.Processor.Output
import Ride.Processor.Poll
import Ride.Processor.Orphans
import Ride.Processor.Fixed
import Ride.Processor.Room
import Ride.Processor.Tasks
import Ride.Processor.Ownership
import Ride.Processor.Exhaustion
import Ride.Processor.Opens
import Ride.System.Model
import Ride.System.Ledger
import Ride.Processor.Progress
import Ride.System.Wakeups
import Ride.Verifier.Model
import Ride.Verifier.Rounds
import Ride.Verifier.Streams
import Ride.Verifier.Slot
import Ride.Verifier.Retransmit
import Ride.Verifier.Access
import Ride.Verifier.Timer
import Ride.Verifier.Expiry
import Ride.Verifier.Messages
import Ride.Verifier.Lines
import Ride.Verifier.Address
import Ride.Server.Model
import Ride.Server.Streams
import Ride.Server.Packets
import Ride.Server.Delivery
import Ride.Server.Progress
import Ride.Process.Model
import Ride.Process.Pipeline
import Ride.Process.Output
import Ride.Process.Stdout
import Ride.Server.Deployment
