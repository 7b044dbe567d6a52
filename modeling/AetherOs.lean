import AetherOs.Heap.Runs
import AetherOs.Paging.ForkPermissions
import AetherOs.Cap.Revocation
import AetherOs.Ipc.Blocking
import AetherOs.Proc.Descriptors
import AetherOs.Syscall.WriteAccess
import AetherOs.Fat32.Names
import AetherOs.Fat32.Allocation
import AetherOs.Fat32.Mount
import AetherOs.Fat32.FileSize
import AetherOs.BlockCache.Transparency
import AetherOs.Tcp.Receive
import AetherOs.Tcp.Retransmit
import AetherOs.Tcp.Endpoints
import AetherOs.Terminal.LineEditing
import AetherOs.Net.Dhcp
import AetherOs.Net.Dns
import AetherOs.Users.RoundTrip
import AetherOs.Socket.Binding
import AetherOs.Socket.Delivery
import AetherOs.Paging.References
import AetherOs.Buddy.Accounting
import AetherOs.Heap.Guarantee
import AetherOs.Printf.Termination
import AetherOs.Userland.FailedExec
import AetherOs.Cap.IrqPolicy
import AetherOs.Ipc.Messages
import AetherOs.Proc.Credentials
import AetherOs.Shm.Overlap
import AetherOs.Signal.Privilege
import AetherOs.Signal.Stopping
import AetherOs.Signal.Uncatchable
