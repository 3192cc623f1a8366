import KnoxOS.Vmm.Coalescing
import KnoxOS.Swap.Store
import KnoxOS.Vmm.Runs
import KnoxOS.Sched.Hierarchy
import KnoxOS.Sched.Family
import KnoxOS.Sched.Wait
import KnoxOS.Heap.Tiered
import KnoxOS.PageCache.Races
import KnoxOS.Ipc.FileLocks
import KnoxOS.Ipc.Mqueue
import KnoxOS.Ipc.RingPipe
import KnoxOS.Sched.Futex
import KnoxOS.Fs.Offsets
import KnoxOS.Fs.PipeEnds
import KnoxOS.Ipc.Epoll
import KnoxOS.Sched.Chroot
import KnoxOS.Vfs.HardLinks
import KnoxOS.Vfs.Rename
import KnoxOS.Sched.Admission
import KnoxOS.Sched.Fairness
import KnoxOS.Sched.JobControl
import KnoxOS.Sched.SignalReturn
import KnoxOS.Sched.Capabilities
import KnoxOS.Security.Seccomp
import KnoxOS.Syscall.Pointers
import KnoxOS.Net.Stream
import KnoxOS.Fs.Jbd2Replay
import KnoxOS.Fs.Compact
import KnoxOS.Crypto.CertChain
