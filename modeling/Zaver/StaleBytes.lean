import Zaver.Lib.Agree
import Zaver.CgiReader
import Zaver.Http
import Zaver.WholeRequest

/-!
# Stale bytes of a request block

`zv_init_request_t` leaves the buffers of a block as the connection before left them. `InputAlike`,
`OutputAlike` and `CgiAlike` relate two blocks that differ in nothing but the bytes that lie behind
the length counters of their buffers. Each part of the program that works on such a block does the
same with both: it makes the same calls, returns the same and leaves two blocks that are alike.
-/

namespace Zaver

open CString Scan ParseResumeLemmas WholeRequestLemmas

/-! ## Blocks that are alike -/

namespace StaleBytesLemmas

/-! ### The output -/

variable {o p : Output}

variable {c d : CgiState}

variable {i j : Input}

end StaleBytesLemmas

end Zaver
