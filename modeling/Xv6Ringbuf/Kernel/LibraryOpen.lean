import Xv6Ringbuf.Kernel.Failed
import Xv6Ringbuf.Kernel.Sharing
import Xv6Ringbuf.User.Descriptors

namespace Xv6Ringbuf.Kernel

open Machine Function

section Open

variable {sys : Sys} {c : Call}

variable [Image] (h : Sound sys) (hopens : c.opens = 1)
  (hcell : CellMapped (sys.pagetables c.pid) c.addr 8)

include h hopens hcell

end Open

variable {sys : Sys} {c : Call} {s' : State}

end Xv6Ringbuf.Kernel
