import Xinu.Proofs.Config.Consistent
import Xinu.Proofs.Config.Select
import Xinu.Proofs.Config.Symbols
import Xinu.Proofs.Config.TypeList
import Xinu.Proofs.Kernel.BadPid
import Xinu.Proofs.Kernel.Clock
import Xinu.Proofs.Kernel.Kill
import Xinu.Proofs.Kernel.Locks
import Xinu.Proofs.Kernel.Ready
import Xinu.Proofs.Library.Qsort
import Xinu.Proofs.Library.Strstr
import Xinu.Proofs.Machine.Counters
import Xinu.Proofs.Machine.Delay
import Xinu.Proofs.Machine.Dispatch
import Xinu.Proofs.Machine.IrqHandler
import Xinu.Proofs.Machine.Trap
import Xinu.Proofs.Machine.Walk
import Xinu.Proofs.Memory.Minijava
import Xinu.Proofs.Paging.Bytes
import Xinu.Proofs.Paging.FreeRange
import Xinu.Proofs.Paging.KernelMap
import Xinu.Proofs.Print.Buffer
import Xinu.Proofs.Print.Conversions
import Xinu.Proofs.Print.RoundTrip
import Xinu.Proofs.Queue.Remove
import Xinu.Proofs.Scan.Device
import Xinu.Proofs.Scan.Lines
import Xinu.Proofs.Scan.Suppress
