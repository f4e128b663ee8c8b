import Nyvela.IpcFifo
import Nyvela.UserCopy
import Nyvela.RamfsInvariant
import Nyvela.DeviceIsolation
import Nyvela.AsMap
import Nyvela.PageMap
import Nyvela.HeapReuse
import Nyvela.Preemption
import Nyvela.DeviceInterrupt
import Nyvela.Boot
import Nyvela.Dispatch
import Nyvela.Receive
import Nyvela.RamfsList
import Nyvela.RamfsWrite
import Nyvela.HeapRealloc
import Nyvela.Console
import Nyvela.FrameMap
import Nyvela.MmioRange
import Nyvela.AllocPage
import Nyvela.SharedPages
import Nyvela.PageCopy
import Nyvela.ExecPages
import Nyvela.DmaExclusion
import Nyvela.ExecLifetime
import Nyvela.ExecFailure
import Nyvela.Scancode
import Nyvela.Descriptors
import Nyvela.Decimal
import Nyvela.HeapAlignment
import Nyvela.AddrSpaces
import Nyvela.E820
import Nyvela.ConsoleCells
import Nyvela.Fairness
import Nyvela.FileCalls
import Nyvela.MailCalls
