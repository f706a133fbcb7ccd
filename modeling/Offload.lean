import Offload.Channel.Session
import Offload.Monitor.Session
import Offload.Pipeline.Notice
import Offload.Pipeline.Session
import Offload.FileTree
import Offload.Channel.Trials
import Offload.Monitor.Trials
import Offload.Pipeline.Trials
import Offload.Main
import Offload.Proofs.Channel.Conservation
import Offload.Proofs.Monitor.Waiting
import Offload.Proofs.Pipeline.Conservation
import Offload.Proofs.Pipeline.Shutdown
import Offload.Proofs.Channel.Waking
import Offload.Proofs.Channel.Serving
import Offload.Proofs.Channel.Clearing
import Offload.Proofs.Channel.Hooking
import Offload.Proofs.Monitor.Releasing
import Offload.Proofs.Pipeline.Deadlock
import Offload.Proofs.Pipeline.Routing
import Offload.Proofs.Pipeline.Report
import Offload.Proofs.Pipeline.Death
import Offload.Proofs.Pipeline.Draining
import Offload.Proofs.Pipeline.OwnDrop
import Offload.Proofs.Pipeline.Unwinding
import Offload.Proofs.Pipeline.Composing
import Offload.Proofs.Pipeline.Agreeing
import Offload.Proofs.Pipeline.Idling
import Offload.Proofs.Demo.Books
import Offload.Proofs.Demo.Emptying
import Offload.Proofs.Demo.Going
import Offload.Proofs.Demo.Outcome
import Offload.Proofs.Demo.Signals
import Offload.Proofs.Demo.Starting
import Offload.Proofs.Monitor.Poison
import Offload.Proofs.Pipeline.Looping
import Offload.Proofs.Pipeline.Admission
