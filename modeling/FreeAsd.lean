import FreeAsd.Boot.Handoff
import FreeAsd.Mm.SlabResults
import FreeAsd.Mm.Regions
import FreeAsd.Mm.PhysSetup
import FreeAsd.Mm.Isolation
import FreeAsd.Ipc.RingbufBatch
import FreeAsd.Ipc.PortHeap
import FreeAsd.Sched.RbRuns
import FreeAsd.Init.Identity
import FreeAsd.Sched.Locks
import FreeAsd.Sched.NestedWaits
import FreeAsd.Sched.ProcessIds
import FreeAsd.Vfs.DescriptorIsolation
import FreeAsd.Vfs.Pipe
import FreeAsd.Vfs.RamfsList
import FreeAsd.Vfs.WorkingDirectory
import FreeAsd.Vfs.Writev
import FreeAsd.Net.X25519Ladder
import FreeAsd.Net.TcpSend
import FreeAsd.Net.TlsSlots
import FreeAsd.Net.Frames
import FreeAsd.Net.DnsQuery
import FreeAsd.Usr.PasswdLine
import FreeAsd.Usr.SetPassword
import FreeAsd.Init.Persist
import FreeAsd.Apm.Integrity
import FreeAsd.Shell.RedirectRuns
import FreeAsd.Drv.Adf
import FreeAsd.Bin.Find
import FreeAsd.Bin.Hx
import FreeAsd.Security.Entropy
