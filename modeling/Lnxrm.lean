import Lnxrm.Block.Atomicity
import Lnxrm.Sched.OneCpu
import Lnxrm.Process.Reaping
import Lnxrm.Vmm.Lifetime
import Lnxrm.Kheap.Safety
import Lnxrm.Trap.Safety
import Lnxrm.Fat32.Failed
import Lnxrm.Vfs.Refcounts
import Lnxrm.Fat32.Copies
import Lnxrm.Vfs.Truncation
import Lnxrm.Process.RoundRobin
import Lnxrm.Fat32.InPlace
import Lnxrm.Vfs.Listing
import Lnxrm.Vfs.OpenTruncate
import Lnxrm.Fat32.FileSize
import Lnxrm.Block.FailedRead
import Lnxrm.Signal.Ignored
import Lnxrm.Exec.Brk
import Lnxrm.Exec.Permissions
import Lnxrm.Exec.Malformed
import Lnxrm.Exec.Stack
import Lnxrm.Console.Keyboard
import Lnxrm.Console.Input
import Lnxrm.Console.Framebuffer
import Lnxrm.Process.Waiting
import Lnxrm.Fat32.BootSector
import Lnxrm.Exec.Isolation
import Lnxrm.Process.Descent
