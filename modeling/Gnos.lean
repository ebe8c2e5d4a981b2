import Gnos.Cgroup.Directories
import Gnos.Pmm.Run
import Gnos.PageCache.Coherence
import Gnos.Heap.Run
import Gnos.Ptrace.Image
import Gnos.Signal.RoundTrip
import Gnos.Sched.Fairness
import Gnos.Sched.Parking
import Gnos.Proc.Pids
import Gnos.Proc.Zombies
import Gnos.Seccomp.Bpf
import Gnos.Seccomp.Confinement
import Gnos.Seccomp.Privileges
import Gnos.Ptrace.Stops
import Gnos.Signal.Actions
import Gnos.Slab.Ownership
import Gnos.Module.Elf
import Gnos.Net.Checksum
import Gnos.Net.RoundTrip
import Gnos.Tcp.Integrity
import Gnos.Tcp.Pool
import Gnos.Vfs.Isolation
import Gnos.Vfs.Mounting
import Gnos.Ext2.Extents
import Gnos.Vfs.PathNorm
import Gnos.Vmm.AddressMap
import Gnos.Ipc.Sleepers
import Gnos.Sync.Mutex
import Gnos.Ipc.Segments
import Gnos.Unix.Pairing
import Gnos.Files.Append
import Gnos.Files.Pipes
import Gnos.Tmpfs.Contents
import Gnos.Tmpfs.Tree
import Gnos.Tty.Twins
import Gnos.Sched.Picking
import Gnos.Input.Evdev
