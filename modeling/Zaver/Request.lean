import Zaver.Lib.Bytes

/-!
# The request block and the calls made on it

`Request` is `zv_http_request_t`. Its fields are grouped by the comments of the
source into the receive window with the parser state (`Input`), the output state
of a response being written (`Output`) and the CGI state (`CgiState`). A pointer
into `buf` is its offset, `NULL` is `none`; a descriptor or pid field that the
source keeps at `-1` is `none`.

A callback talks to the kernel and to the other modules. What the kernel answers
is data a caller supplies (`Ans`); what the callback asks for is written down in
order as a list of `Call`s. No callback reads the timer heap, the epoll set or
the request pool, so the list is all that the worker needs to carry the calls out.
-/

namespace Zaver

/-- A file descriptor. -/
abbrev Fd := Nat

/-- A process id. -/
abbrev Pid := Nat

/-- Size of the receive buffer. One byte is never filled. -/
def MAX_BUF : Nat := 8124

/-- Size of `out_header`. -/
def ZV_OUT_HEADER_SIZE : Nat := 8192

/-- Size of the line buffers of `http.c`. -/
def MAXLINE : Nat := 8192

/-- Size of the path buffers of `http.c`. -/
def SHORTLINE : Nat := 512

/-- `sizeof(r->cgi_hdr_buf)`. -/
def CGI_HDR_SIZE : Nat := 4096

/-- `sizeof(r->cgi_http_header)`. -/
def CGI_HTTP_HEADER_SIZE : Nat := 4096

/-- `sizeof(r->cgi_chunk_prefix)`. -/
def CGI_CHUNK_PREFIX_SIZE : Nat := 32

/-- `sizeof(r->cgi_body_buf)`. -/
def CGI_BODY_SIZE : Nat := 8192

def ZV_DEFAULT_KEEP_ALIVE_TIMEOUT_MS : Nat := 5000

def ZV_DEFAULT_REQUEST_TIMEOUT_MS : Nat := 5000

/-! ## Parser state -/

/-- The request methods the parser tells apart. -/
inductive Method
  | unknown | get | head | post
deriving DecidableEq, Repr

/-- The states of `zv_http_parse_request_line`. -/
inductive LineState
  | swStart | swMethod | swSpacesBeforeUri | swAfterSlashInUri
  | swHttp | swHttpH | swHttpHT | swHttpHTT | swHttpHTTP
  | swFirstMajorDigit | swMajorDigit | swFirstMinorDigit | swMinorDigit
  | swSpacesAfterDigit | swAlmostDone
deriving DecidableEq, Repr

/-- The states of `zv_http_parse_request_body`. -/
inductive HeaderState
  | swStart | swKey | swSpacesBeforeColon | swSpacesAfterColon
  | swValue | swCr | swCrlf | swCrlfcr
deriving DecidableEq, Repr

/-- `parse_phase`: request line, headers, ready to handle. -/
inductive ParsePhase
  | line | headers | ready
deriving DecidableEq, Repr

/-- `zv_http_header_t`: the spans of one header, as offsets into `buf`. -/
structure Header where
  keyStart : Option Nat
  keyEnd : Option Nat
  valueStart : Option Nat
  valueEnd : Option Nat
deriving DecidableEq, Repr

/-- The receive window and the parser fields. The header list is kept as
`list_add` builds it, newest first. -/
structure Input where
  buf : Mem UInt8
  last : Nat
  parsePos : Nat
  requestLineState : LineState
  headerState : HeaderState
  parsePhase : ParsePhase
  requestStart : Option Nat
  methodEnd : Option Nat
  method : Method
  uriStart : Option Nat
  uriEnd : Option Nat
  httpMajor : Int
  httpMinor : Int
  requestEnd : Option Nat
  list : List Header
  curHeaderKeyStart : Option Nat
  curHeaderKeyEnd : Option Nat
  curHeaderValueStart : Option Nat
  curHeaderValueEnd : Option Nat

/-- The bytes between two pointers into the receive buffer. -/
def Input.span (i : Input) (lo hi : Option Nat) : Bytes := i.buf.slice (lo.getD 0) (hi.getD 0)

/-- What a complete request says, as the spans show it. -/
structure Served where
  token : Bytes
  uri : Bytes
  httpMajor : Int
  httpMinor : Int
  headers : List (Bytes × Bytes)
deriving DecidableEq, Repr

/-- The key and value bytes of a stored header. -/
def Input.headerBytes (i : Input) (h : Header) : Bytes × Bytes :=
  (i.span h.keyStart h.keyEnd, i.span h.valueStart h.valueEnd)

/-- The request as the fields show it once both parsers have returned `ZV_OK`. -/
def Input.served (i : Input) : Served where
  token := i.span i.requestStart i.methodEnd
  uri := i.span i.uriStart i.uriEnd
  httpMajor := i.httpMajor
  httpMinor := i.httpMinor
  headers := i.list.map i.headerBytes

/-! ## Output and CGI state -/

/-- The output state for non-blocking write continuation. -/
structure Output where
  keepAlive : Bool
  writing : Bool
  outHeader : Mem UInt8
  outHeaderLen : Nat
  outHeaderSent : Nat
  outBody : Option Bytes
  outBodyLen : Nat
  outBodySent : Nat
  outFileFd : Option Fd
  outFileOffset : Nat
  outFileSize : Nat

/-- The CGI state. -/
structure CgiState where
  active : Bool
  pid : Option Pid
  outFd : Option Fd
  eof : Bool
  outTotal : Nat
  outLimit : Nat
  headersDone : Bool
  hdrBuf : Mem UInt8
  hdrLen : Nat
  httpHeader : Mem UInt8
  httpHeaderLen : Nat
  httpHeaderSent : Nat
  chunkPrefix : Mem UInt8
  chunkPrefixLen : Nat
  chunkPrefixSent : Nat
  chunkSuffixSent : Nat
  finalChunk : Mem UInt8
  finalChunkLen : Nat
  finalChunkSent : Nat
  bodyBuf : Mem UInt8
  bodyLen : Nat
  bodySent : Nat

/-- `zv_http_request_t`. The fields `timer` and `freelist` belong to the timer
module and the request pool and are kept with them; the epoll items are named by
the block they belong to; `cgi_in_fd` is never set to a descriptor. -/
structure Request where
  root : Option Bytes
  fd : Option Fd
  keepAliveTimeoutMs : Nat
  requestTimeoutMs : Nat
  inp : Input
  out : Output
  cgi : CgiState

/-- `zv_http_out_t`. -/
structure HttpOut where
  keepAlive : Bool
  mtime : Int
  modified : Bool
  status : Nat

/-- The part of `zv_conf_t` that a request reads. -/
structure Conf where
  root : Option Bytes
  keepAliveTimeoutMs : Int
  requestTimeoutMs : Int

/-! ## The kernel -/

/-- The answer to a system call that transfers bytes. -/
inductive Ans (α : Type)
  | ok (a : α)
  | eintr
  | eagain
  | error
deriving DecidableEq, Repr

/-- What an epoll registration waits for. -/
inductive Interest
  | epollin | epollout
deriving DecidableEq, Repr

/-- The calls a callback makes, in order. `serve` is not a call: it marks the
moment at which `do_request` hands a parsed request to `handle_cgi_mvp`, and
`load` the moment at which a body piece is ready in `cgi_body_buf`. -/
inductive Call
  | recv (bs : Bytes)
  | serve (q : Served) (method : Method)
  | writev (bs : Bytes)
  | sendfile (bs : Bytes)
  | pipeRead (bs : Bytes)
  | load (bs : Bytes)
  | rearm (ev : Interest)
  | watchPipe
  | delTimer
  | addTimer (ms : Nat)
  | stat (file : Bytes)
  | openFile (file : Bytes) (fd : Fd)
  | pipe (rd wr : Fd)
  | fork (pid : Pid) (file : Bytes) (envp : List Bytes)
  | kill (pid : Pid)
  | waitpid (pid : Pid) (reaped : Bool)
  | close (fd : Fd)
  | putDeferred
deriving DecidableEq, Repr

/-- The bytes the client socket has accepted. -/
def accepted (tr : List Call) : Bytes :=
  tr.flatMap fun
    | .writev bs => bs
    | .sendfile bs => bs
    | _ => []

/-- The bytes read from the client socket. -/
def received (tr : List Call) : Bytes :=
  tr.flatMap fun
    | .recv bs => bs
    | _ => []

/-- The results of the reads from the CGI pipe, the empty one of end of file included. -/
def pipeReads (tr : List Call) : List Bytes :=
  tr.filterMap fun
    | .pipeRead bs => some bs
    | _ => none

/-- The body pieces made ready for the chunk writer. -/
def pieces (tr : List Call) : List Bytes :=
  tr.filterMap fun
    | .load bs => some bs
    | _ => none

/-- The requests handed to `handle_cgi_mvp`. -/
def servedOf (tr : List Call) : List Served :=
  tr.filterMap fun
    | .serve q _ => some q
    | _ => none

@[simp] theorem accepted_nil : accepted [] = [] := rfl

@[simp] theorem accepted_append (t u : List Call) : accepted (t ++ u) = accepted t ++ accepted u :=
  List.flatMap_append

@[simp] theorem received_nil : received [] = [] := rfl

@[simp] theorem received_append (t u : List Call) : received (t ++ u) = received t ++ received u :=
  List.flatMap_append

@[simp] theorem pipeReads_append (t u : List Call) :
    pipeReads (t ++ u) = pipeReads t ++ pipeReads u :=
  List.filterMap_append

@[simp] theorem pieces_append (t u : List Call) : pieces (t ++ u) = pieces t ++ pieces u :=
  List.filterMap_append

@[simp] theorem servedOf_append (t u : List Call) : servedOf (t ++ u) = servedOf t ++ servedOf u :=
  List.filterMap_append

/-! ## Initialisation -/

/-- `zv_init_request_t`. The block `old` may come from an earlier connection: its
buffers are left as they are. -/
def zvInitRequestT (old : Request) (fd : Fd) (cf : Conf) : Request where
  root := cf.root
  fd := some fd
  keepAliveTimeoutMs :=
    if cf.keepAliveTimeoutMs > 0 then cf.keepAliveTimeoutMs.toNat
    else ZV_DEFAULT_KEEP_ALIVE_TIMEOUT_MS
  requestTimeoutMs :=
    if cf.requestTimeoutMs > 0 then cf.requestTimeoutMs.toNat else ZV_DEFAULT_REQUEST_TIMEOUT_MS
  inp :=
    { buf := old.inp.buf, last := 0, parsePos := 0
      requestLineState := .swStart, headerState := .swStart, parsePhase := .line
      requestStart := none, methodEnd := none, method := .unknown
      uriStart := none, uriEnd := none, httpMajor := 0, httpMinor := 0, requestEnd := none
      list := []
      curHeaderKeyStart := none, curHeaderKeyEnd := none
      curHeaderValueStart := none, curHeaderValueEnd := none }
  out :=
    { keepAlive := false, writing := false
      outHeader := old.out.outHeader.write 0 [0], outHeaderLen := 0, outHeaderSent := 0
      outBody := none, outBodyLen := 0, outBodySent := 0
      outFileFd := none, outFileOffset := 0, outFileSize := 0 }
  cgi :=
    { active := false, pid := none, outFd := none, eof := false
      outTotal := 0, outLimit := 1024 * 1024, headersDone := false
      hdrBuf := old.cgi.hdrBuf, hdrLen := 0
      httpHeader := old.cgi.httpHeader, httpHeaderLen := 0, httpHeaderSent := 0
      chunkPrefix := old.cgi.chunkPrefix, chunkPrefixLen := 0, chunkPrefixSent := 0
      chunkSuffixSent := 0
      finalChunk := old.cgi.finalChunk, finalChunkLen := 0, finalChunkSent := 0
      bodyBuf := old.cgi.bodyBuf, bodyLen := 0, bodySent := 0 }

/-- A block of zero bytes. -/
def Request.zero : Request where
  root := none
  fd := none
  keepAliveTimeoutMs := 0
  requestTimeoutMs := 0
  inp :=
    { buf := fun _ => 0, last := 0, parsePos := 0
      requestLineState := .swStart, headerState := .swStart, parsePhase := .line
      requestStart := none, methodEnd := none, method := .unknown
      uriStart := none, uriEnd := none, httpMajor := 0, httpMinor := 0, requestEnd := none
      list := []
      curHeaderKeyStart := none, curHeaderKeyEnd := none
      curHeaderValueStart := none, curHeaderValueEnd := none }
  out :=
    { keepAlive := false, writing := false
      outHeader := fun _ => 0, outHeaderLen := 0, outHeaderSent := 0
      outBody := none, outBodyLen := 0, outBodySent := 0
      outFileFd := none, outFileOffset := 0, outFileSize := 0 }
  cgi :=
    { active := false, pid := none, outFd := none, eof := false
      outTotal := 0, outLimit := 0, headersDone := false
      hdrBuf := fun _ => 0, hdrLen := 0
      httpHeader := fun _ => 0, httpHeaderLen := 0, httpHeaderSent := 0
      chunkPrefix := fun _ => 0, chunkPrefixLen := 0, chunkPrefixSent := 0, chunkSuffixSent := 0
      finalChunk := fun _ => 0, finalChunkLen := 0, finalChunkSent := 0
      bodyBuf := fun _ => 0, bodyLen := 0, bodySent := 0 }

/-- A registration in the epoll set. Every registration of a connection is made
with `EPOLLONESHOT`: once its event is taken by `epoll_wait` it is `fired`, and no
further event comes before it is armed again. -/
inductive Reg
  | off
  | armed (ev : Interest)
  | fired (ev : Interest)
deriving DecidableEq, Repr

/-- A connection: its request block, the registrations of its socket and of its
CGI pipe, whether the socket is open, and the calls made so far. -/
structure Conn where
  r : Request
  sock : Reg
  pipe : Reg
  isOpen : Bool
  tr : List Call

namespace Conn

/-- Appends calls to the record. -/
def emit (c : Conn) (calls : List Call) : Conn := { c with tr := c.tr ++ calls }

/-- `rearm_event`: `EPOLL_CTL_MOD` of the client socket. -/
def rearmEvent (c : Conn) (ev : Interest) : Conn :=
  { c.emit [.rearm ev] with sock := .armed ev }

/-- `EPOLL_CTL_ADD` or `EPOLL_CTL_MOD` of the CGI pipe. -/
def watchPipe (c : Conn) : Conn :=
  { c.emit [.watchPipe] with pipe := .armed .epollin }

/-- `zv_del_timer(r)`. -/
def delTimer (c : Conn) : Conn := c.emit [.delTimer]

/-- `zv_add_timer(r, ms, zv_http_close_conn)`. -/
def addTimer (c : Conn) (ms : Nat) : Conn := c.emit [.addTimer ms]

end Conn

/-- `if (fd >= 0) close(fd)`. -/
def closeFd : Option Fd → List Call
  | some fd => [.close fd]
  | none => []

@[simp] theorem accepted_closeFd (fd : Option Fd) : accepted (closeFd fd) = [] := by
  cases fd <;> rfl

@[simp] theorem pieces_closeFd (fd : Option Fd) : pieces (closeFd fd) = [] := by
  cases fd <;> rfl

@[simp] theorem pipeReads_closeFd (fd : Option Fd) : pipeReads (closeFd fd) = [] := by
  cases fd <;> rfl

/-- The CGI part of `zv_free_request_t`: the child is killed and waited for
without blocking; `reaped` is the answer of that `waitpid`. -/
def freeCgi (reaped : Bool) (c : CgiState) : CgiState × List Call :=
  if c.active then
    let calls :=
      (match c.pid with
        | some pid => [.kill pid, .waitpid pid reaped]
        | none => []) ++ closeFd c.outFd
    ({ c with active := false, pid := none, outFd := none }, calls)
  else (c, [])

/-- `zv_free_request_t`. -/
def zvFreeRequestT (reaped : Bool) (r : Request) : Request × List Call :=
  let (cgi, cgiCalls) := freeCgi reaped r.cgi
  ({ r with
      inp := { r.inp with list := [] }
      out := { r.out with outBody := none, outFileFd := none }
      cgi := cgi }, closeFd r.out.outFileFd ++ cgiCalls)

/-- `zv_http_close_conn`. Closing a descriptor removes its registration, as long as no other process
holds it. -/
def zvHttpCloseConn (reaped : Bool) (c : Conn) : Conn :=
  let (r, calls) := zvFreeRequestT reaped c.r
  { c.emit (calls ++ closeFd r.fd ++ [.putDeferred]) with
    r := { r with fd := none }, sock := .off, pipe := .off, isOpen := false }

/-- `zv_init_out_t`. The modification time of the block `old` is not touched. -/
def zvInitOutT (old : HttpOut) : HttpOut :=
  { old with keepAlive := false, modified := true, status := 0 }

end Zaver
