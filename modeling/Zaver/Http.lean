import Zaver.Output
import Zaver.ParseResume

/-!
# The callbacks of the client socket

`do_request`, `handle_cgi_mvp` and `do_write` of `http.c`, with the header handlers of
`http_request.c`.

`do_request` is a loop: it reads when everything buffered was parsed, parses, and answers
a complete request. `requestPass` is one pass of it, on the answers that the kernel and
the file system give in that pass (`PassEnv`). The loop ends when a pass returns,
closes the connection or finds nothing to read.

What the C library makes of dates is a parameter (`Libc`). An allocation that ends the
process (`exit(1)`) is taken to succeed.
-/

namespace Zaver

open CString

/-! ## Header handlers -/

/-- What the C library does with dates: the text of a modification time, and the time
that a header value stands for, if it is a date. The text is a date of the format
`"%a, %d %b %Y %H:%M:%S GMT"` and fills a buffer of `SHORTLINE` bytes. `strptime` is that function
and `mktime` behind it, which also looks at `tm_isdst`, a field that `strptime` leaves alone. -/
structure Libc where
  strftime : Int → Bytes
  strftime_lt : ∀ t, (strftime t).length < SHORTLINE
  strftime_plain : ∀ t, CR ∉ strftime t ∧ LF ∉ strftime t
  strptime : Int → Bytes → Option Int

/-- The header handlers of `zv_http_headers_in`. -/
inductive HeaderHandler
  | ignore | connection | ifModifiedSince
deriving DecidableEq, Repr

/-- `zv_http_headers_in`. -/
def zvHttpHeadersIn : List (Bytes × HeaderHandler) :=
  [(ascii "Host", .ignore), (ascii "Connection", .connection),
    (ascii "If-Modified-Since", .ifModifiedSince)]

/-- `zv_http_process_connection`. -/
def zvHttpProcessConnection (value : Bytes) (o : HttpOut) : HttpOut :=
  if strncasecmpEq (ascii "keep-alive") value value.length then { o with keepAlive := true }
  else if strncasecmpEq (ascii "close") value value.length then { o with keepAlive := false }
  else o

/-- `zv_http_process_if_modified_since`; `data` is the buffer from the value on, and `isdst` what
`tm_isdst` of the uninitialised `struct tm` holds. -/
def zvHttpProcessIfModifiedSince (lib : Libc) (isdst : Int) (data : Bytes) (o : HttpOut) :
    HttpOut :=
  match lib.strptime isdst data with
  | none => o
  | some clientTime =>
    if o.mtime = clientTime then { o with modified := false, status := 304 } else o

/-- The handler of one header: the first whose name starts with the key. -/
def handleOne (lib : Libc) (isdst : Header → Int) (i : Input) (o : HttpOut) (hd : Header) :
    HttpOut :=
  let key := i.span hd.keyStart hd.keyEnd
  match zvHttpHeadersIn.find? (fun h => strncmpEq key h.1 key.length) with
  | some (_, .connection) => zvHttpProcessConnection (i.span hd.valueStart hd.valueEnd) o
  | some (_, .ifModifiedSince) =>
    zvHttpProcessIfModifiedSince lib (isdst hd) (i.buf.slice (hd.valueStart.getD 0) MAX_BUF) o
  | _ => o

/-- `HTTP/1.1` and later keep the connection by default. -/
def defaultKeepAlive (i : Input) : Bool :=
  decide (i.httpMajor > 1) || (decide (i.httpMajor = 1) && decide (i.httpMinor ≥ 1))

/-- `zv_http_handle_header`. The headers are taken off the list. -/
def zvHttpHandleHeader (lib : Libc) (isdst : Header → Int) (i : Input) (o : HttpOut) : HttpOut :=
  i.list.foldl (handleOne lib isdst i) { o with keepAlive := defaultKeepAlive i }

/-! ## What a pass meets -/

/-- `struct stat`: whether the file is regular, the owner's read and execute bits, the size
and the modification time. -/
structure FileStat where
  isReg : Bool
  userRead : Bool
  userExec : Bool
  size : UInt64
  mtime : Int

/-- The answers to the calls of one pass. `outMtime` is what the allocated
`zv_http_out_t` holds in its time field, and `tmIsdst` what is on the stack when a header is
handled. -/
structure PassEnv where
  read : Ans Bytes
  malloc : Bool
  stat : Option FileStat
  realpath : Bytes → Option Bytes
  openAns : Option Fd
  send : SendEnv
  start : CgiStartEnv
  outMtime : Int
  tmIsdst : Header → Int
  reaped : Bool

/-! ## Steps that several branches take -/

namespace Conn

/-- `reset_output(r)`. -/
def reset (c : Conn) : Conn :=
  let (o, calls) := resetOutput c.r.out
  { c.emit calls with r := { c.r with out := o } }

/-- `prepare_error(r, ...)`. -/
def prepareError (malloc : Bool) (page : ErrorPage) (keepAlive : Bool) (c : Conn) : Conn × Bool :=
  let (o, calls, ok) := Zaver.prepareError malloc page keepAlive c.r.keepAliveTimeoutMs c.r.out
  ({ c.emit calls with r := { c.r with out := o } }, ok)

/-- `prepare_static(r, ...)`. -/
def prepareStatic (lib : Libc) (openAns : Option Fd) (filename : Bytes) (filesize : UInt64)
    (out : HttpOut) (c : Conn) : Conn × Bool :=
  let (o, calls, ok) := Zaver.prepareStatic lib.strftime openAns filename filesize out
    c.r.keepAliveTimeoutMs c.r.out
  ({ c.emit calls with r := { c.r with out := o } }, ok)

/-- `try_send(r)`. -/
def trySend (e : SendEnv) (c : Conn) : Conn × SendRc :=
  let (o, calls, rc) := Zaver.trySend e c.r.out
  ({ c.emit calls with r := { c.r with out := o } }, rc)

/-- `r->writing = 1`. -/
def setWriting (c : Conn) : Conn :=
  { c with r := { c.r with out := { c.r.out with writing := true } } }

/-- The response waits for room in the socket. -/
def waitOutput (c : Conn) : Conn := (c.rearmEvent .epollout).addTimer c.r.requestTimeoutMs

/-- The labels `err` and `close` of `do_request`. -/
def closeLabel (reaped : Bool) (c : Conn) : Conn := zvHttpCloseConn reaped c.reset

end Conn

/-! ## `handle_cgi_mvp` -/

/-- How `handle_cgi_mvp` ends: `ZV_CGI_NOT`, `ZV_CGI_RETURN`, `ZV_CGI_CLOSE`, `-1`, or not
yet. -/
inductive CgiRc
  | not | returned | close | error | inCall
deriving DecidableEq, Repr

/-- An error page after which the connection is closed. -/
def replyAndClose (e : PassEnv) (page : ErrorPage) (c : Conn) : Conn × CgiRc :=
  match c.prepareError e.malloc page false with
  | (c, false) => (c, .error)
  | (c, true) =>
    match c.trySend e.send with
    | (c, .fail) => (c, .error)
    | (c, .again) => (c.setWriting.waitOutput, .returned)
    | (c, .done) => (c, .close)
    | (c, .inCall) => (c, .inCall)

/-- The part of `handle_cgi_mvp` behind the mapping of the path. -/
def startScript (e : PassEnv) (filename : Bytes) (c : Conn) : Conn × CgiRc :=
  let uri := c.r.inp.span c.r.inp.uriStart c.r.inp.uriEnd
  let c := c.emit [.stat filename]
  match e.stat with
  | none =>
    replyAndClose e ⟨filename, ascii "404", ascii "Not Found", ascii "cgi not found"⟩ c
  | some sb =>
    if sb.isReg = false ∨ sb.userExec = false then
      replyAndClose e ⟨filename, ascii "404", ascii "Not Found", ascii "cgi not found"⟩ c
    else if isPathUnderRootReal e.realpath c.r.root filename = false then
      replyAndClose e
        ⟨filename, ascii "403", ascii "Forbidden", ascii "cgi path is outside docroot"⟩ c
    else
      match zvCgiStart e.start filename (uriPath uri) (cgiQueryString uri) c with
      | (c, true) => (c, .returned)
      | (c, false) =>
        replyAndClose e
          ⟨ascii "cgi", ascii "500", ascii "Internal Server Error", ascii "cgi start failed"⟩ c

/-- `handle_cgi_mvp`. -/
def handleCgiMvp (e : PassEnv) (c : Conn) : Conn × CgiRc :=
  if c.r.inp.uriStart = none ∨ c.r.inp.uriEnd = none then (c, .not)
  else
    let uri := c.r.inp.span c.r.inp.uriStart c.r.inp.uriEnd
    if isCgiUri uri = false then (c, .not)
    else if c.r.inp.method ≠ .get then
      replyAndClose e
        ⟨ascii "cgi", ascii "405", ascii "Method Not Allowed", ascii "cgi GET only"⟩ c
    else
      -- The headers are consumed; what they say is not used.
      let c := { c with r := { c.r with inp := { c.r.inp with list := [] } } }
      match cgiFilename c.r.root uri SHORTLINE with
      | .error page => replyAndClose e page c
      | .ok filename => startScript e filename c

/-! ## `do_request` -/

/-- How a pass ends: the loop goes on, nothing is left to read, the callback returns, the
connection is closed, or a call has not returned yet. -/
inductive PassExit
  | next | idle | returned | closed | inCall
deriving DecidableEq, Repr

/-- The parser fields at `request_done`: what follows the request moves to the head of the
buffer. -/
def Input.nextRequest (i : Input) : Input :=
  let i :=
    if i.parsePos > 0 then
      let remaining := i.last - i.parsePos
      { i with
        buf := if remaining > 0 then i.buf.move 0 i.parsePos remaining else i.buf
        last := remaining }
    else i
  { i with
    parsePos := 0, requestLineState := .swStart, headerState := .swStart, parsePhase := .line
    requestStart := none, methodEnd := none, uriStart := none, uriEnd := none
    requestEnd := none }

/-- From the label `request_done` to the end of the pass. -/
def requestDone (e : PassEnv) (keepAlive : Bool) (c : Conn) : Conn × PassExit :=
  if c.r.inp.parsePos > c.r.inp.last then (c.closeLabel e.reaped, .closed)
  else
    let c := { c with r := { c.r with inp := c.r.inp.nextRequest } }
    if c.r.out.writing then (c.waitOutput, .returned)
    else if keepAlive = false then (c.closeLabel e.reaped, .closed)
    else (c, .next)

/-- A prepared response of the static branch is sent. -/
def sendAndFinish (e : PassEnv) (keepAlive : Bool) (c : Conn) : Conn × PassExit :=
  match c.trySend e.send with
  | (c, .fail) => (c.closeLabel e.reaped, .closed)
  | (c, .again) => requestDone e keepAlive c.setWriting
  | (c, .done) => requestDone e keepAlive c.reset
  | (c, .inCall) => (c, .inCall)

/-- An error page of the static branch. -/
def replyPage (e : PassEnv) (page : ErrorPage) (keepAlive : Bool) (c : Conn) : Conn × PassExit :=
  match c.prepareError e.malloc page keepAlive with
  | (c, false) => (c.closeLabel e.reaped, .closed)
  | (c, true) => sendAndFinish e keepAlive c

/-- The static branch for a URI that names a file. -/
def serveFile (lib : Libc) (e : PassEnv) (filename : Bytes) (c : Conn) : Conn × PassExit :=
  let out := zvInitOutT { keepAlive := false, mtime := e.outMtime, modified := false, status := 0 }
  let out := zvHttpHandleHeader lib e.tmIsdst c.r.inp out
  let c := { c with r := { c.r with inp := { c.r.inp with list := [] } } }
  let c := c.emit [.stat filename]
  match e.stat with
  | none =>
    replyPage e
      ⟨filename, ascii "404", ascii "Not Found", ascii "zaver can't find the file"⟩
      out.keepAlive c
  | some sb =>
    if isPathUnderRootReal e.realpath c.r.root filename = false then
      replyPage e ⟨filename, ascii "403", ascii "Forbidden", ascii "path is outside docroot"⟩
        out.keepAlive c
    else if sb.isReg = false ∨ sb.userRead = false then
      replyPage e ⟨filename, ascii "403", ascii "Forbidden", ascii "zaver can't read the file"⟩
        out.keepAlive c
    else
      let out :=
        { out with mtime := sb.mtime, status := if out.status = 0 then 200 else out.status }
      match c.prepareStatic lib e.openAns filename sb.size out with
      | (c, false) => (c.closeLabel e.reaped, .closed)
      | (c, true) => sendAndFinish e out.keepAlive c

/-- The page for a URI that names no file, after which the connection is closed. -/
def replyInvalidUri (e : PassEnv) (c : Conn) : Conn × PassExit :=
  match replyAndClose e
      ⟨ascii "invalid uri", ascii "400", ascii "Bad Request", ascii "invalid uri"⟩ c with
  | (c, .returned) => (c, .returned)
  | (c, .close) => (c.reset.closeLabel e.reaped, .closed)
  | (c, .inCall) => (c, .inCall)
  | (c, _) => (c.closeLabel e.reaped, .closed)

/-- A complete request: `handle_cgi_mvp`, and the static branch when it is not for CGI. -/
def answer (lib : Libc) (e : PassEnv) (c : Conn) : Conn × PassExit :=
  let c := c.emit [.serve c.r.inp.served c.r.inp.method]
  match handleCgiMvp e c with
  | (c, .error) => (c.closeLabel e.reaped, .closed)
  | (c, .returned) => (c, .returned)
  | (c, .close) => (c.closeLabel e.reaped, .closed)
  | (c, .inCall) => (c, .inCall)
  | (c, .not) =>
    let uri := c.r.inp.span c.r.inp.uriStart c.r.inp.uriEnd
    match parseUri c.r.root uri SHORTLINE with
    | none => replyInvalidUri e c
    | some filename => serveFile lib e filename c

/-- Parsing, and the answer to a complete request. What goes on is what has the code
`ZV_AGAIN`: also a request line that `zv_http_parse_request_line` refused with
`ZV_HTTP_PARSE_INVALID_REQUEST`. -/
def parseAndAnswer (lib : Libc) (e : PassEnv) (c : Conn) : Conn × PassExit :=
  let (i, rc) := parsePhases c.r.inp
  let c := { c with r := { c.r with inp := i } }
  if rc.code = ZV_AGAIN then (c, .next)
  else if rc.code ≠ ZV_OK then (c.closeLabel e.reaped, .closed)
  else answer lib e c

/-- One pass of the loop of `do_request`. -/
def requestPass (lib : Libc) (e : PassEnv) (c : Conn) : Conn × PassExit :=
  if c.r.inp.parsePos ≥ c.r.inp.last then
    if c.r.inp.last ≥ MAX_BUF - 1 then (c.closeLabel e.reaped, .closed)
    else
      match e.read with
      | .ok bs =>
        let bs := bs.take (MAX_BUF - c.r.inp.last - 1)
        if bs = [] then (c.closeLabel e.reaped, .closed)
        else
          parseAndAnswer lib e
            { c.emit [.recv bs] with r := { c.r with inp := c.r.inp.load bs } }
      | .eagain => (c, .idle)
      | _ => (c.closeLabel e.reaped, .closed)
  else parseAndAnswer lib e c

/-- The loop of `do_request` and what follows it. -/
def requestLoop (lib : Libc) (c : Conn) : List PassEnv → Conn × Bool
  | [] => (c, false)
  | e :: es =>
    match requestPass lib e c with
    | (c, .next) => requestLoop lib c es
    | (c, .idle) =>
      let tmo :=
        if c.r.inp.last > 0 ∨ c.r.inp.parsePhase ≠ .line then c.r.requestTimeoutMs
        else c.r.keepAliveTimeoutMs
      ((c.rearmEvent .epollin).addTimer tmo, true)
    | (c, .inCall) => (c, false)
    | (c, _) => (c, true)

/-- `do_request`. The second component is false while the callback has not returned. -/
def doRequest (lib : Libc) (es : List PassEnv) (c : Conn) : Conn × Bool :=
  requestLoop lib c.delTimer es

/-! ## `do_write` -/

/-- The answers to the calls of one `do_write`: those of `try_send`, those of
`zv_cgi_on_client_writable` with its `waitpid`, and the `waitpid` of the teardown. -/
structure WriteEnv where
  send : SendEnv
  cgi : List (Ans Nat)
  reapedWrite : Bool
  reapedFree : Bool

/-- The CGI branch of `do_write`. -/
def writeCgi (e : WriteEnv) (c : Conn) : Conn × Bool :=
  match zvCgiOnClientWritable e.cgi e.reapedWrite c with
  | (c, .wouldBlock) => (c.waitOutput, true)
  | (c, .needMore) => (c.addTimer c.r.requestTimeoutMs, true)
  | (c, .inCall) => (c, false)
  | (c, _) => (zvHttpCloseConn e.reapedFree c, true)

/-- The other branch of `do_write`. -/
def writeStatic (e : WriteEnv) (c : Conn) : Conn × Bool :=
  match c.trySend e.send with
  | (c, .again) => (c.setWriting.waitOutput, true)
  | (c, .fail) => (c.closeLabel e.reapedFree, true)
  | (c, .inCall) => (c, false)
  | (c, .done) =>
    let c := c.reset
    if c.r.out.keepAlive = false then (zvHttpCloseConn e.reapedFree c, true)
    else ((c.rearmEvent .epollin).addTimer c.r.keepAliveTimeoutMs, true)

/-- `do_write`. -/
def doWrite (e : WriteEnv) (c : Conn) : Conn × Bool :=
  let c := c.delTimer
  if c.r.cgi.active then writeCgi e c else writeStatic e c

end Zaver
