import Zaver.Lib.Chunked
import Zaver.Lib.Gather
import Zaver.Request

/-!
# The CGI bridge

`cgi.c`. A CGI child writes to a pipe; `zv_cgi_on_stdout_ready` reads it, cuts the
CGI header off and leaves one body piece at a time in `cgi_body_buf`;
`zv_cgi_on_client_writable` sends the HTTP header and then each piece as one
chunk. The two callbacks hand over to each other by re-arming the other side's
descriptor.

The parts of the two callbacks that only touch the CGI fields (`readerLoop`,
`writerLoop`) work on a `CgiState`; the callbacks themselves add the timers, the
registrations and the closing of the connection. Answers of the kernel are
consumed one for each system call. When a list of answers is used up the callback
is still inside that call (`inCall`), so every moment of a callback is the result
of running it on some list of answers.
-/

namespace Zaver

open CString Chunked Gather

/-! ## Header lines -/

/-- `while (*p == ' ' || *p == '\t') p++`. -/
def skipBlanks (p : Bytes) : Bytes := p.dropWhile fun c => c == ' '.toUInt8 || c == 9

/-- `parse_status_code`: the code of a `Status:` line, when it is one. -/
def parseStatusCode (line : Bytes) : Option Nat :=
  let p := skipBlanks (cstr line)
  if strncasecmpEq p (ascii "Status:") 7 then
    let code := atoi (skipBlanks (p.drop 7))
    if code ≥ 100 ∧ code ≤ 599 then some code.toNat else none
  else none

/-- `parse_content_type`: the value of a `Content-Type:` line that fits `outCap`. -/
def parseContentType (line : Bytes) (outCap : Nat) : Option Bytes :=
  let p := skipBlanks (cstr line)
  if strncasecmpEq p (ascii "Content-Type:") 13 then
    let p := skipBlanks (p.drop 13)
    let v := p.rdropWhile fun c => c == CR || c == LF
    if v.length = 0 then none
    else if v.length ≥ outCap then none
    else some v
  else none

/-- `get_shortmsg_from_status_code`. -/
def getShortmsgFromStatusCode (statusCode : Nat) : Bytes :=
  if statusCode = 200 then ascii "OK"
  else if statusCode = 304 then ascii "Not Modified"
  else if statusCode = 404 then ascii "Not Found"
  else ascii "Unknown"

/-- The reason phrase `build_http_header` writes. -/
def cgiReason (status : Nat) : Bytes :=
  let reason := getShortmsgFromStatusCode status
  if reason = ascii "Unknown" then
    if status ≥ 500 then ascii "Internal Server Error"
    else if status ≥ 400 ∧ status < 500 then ascii "Bad Request"
    else ascii "OK"
  else reason

/-- The text of the response header. -/
def cgiHeaderText (status : Nat) (contentType : Bytes) : Bytes :=
  let contentType := if contentType = [] then ascii "text/plain" else contentType
  ascii "HTTP/1.1 " ++ numeral 10 status ++ ascii " " ++ cgiReason status ++
    ascii "\r\nServer: Zaver\r\nConnection: close\r\nContent-Type: " ++ contentType ++
    ascii "\r\nTransfer-Encoding: chunked\r\n\r\n"

/-- `build_http_header`; `false` when the text does not fit. -/
def buildHttpHeader (c : CgiState) (status : Nat) (contentType : Bytes) : CgiState × Bool :=
  let text := cgiHeaderText status contentType
  if text.length ≥ CGI_HTTP_HEADER_SIZE then
    ({ c with httpHeader := c.httpHeader.write 0 (text.take (CGI_HTTP_HEADER_SIZE - 1) ++ [0]) },
      false)
  else
    ({ c with
        httpHeader := c.httpHeader.write 0 (text ++ [0])
        httpHeaderLen := text.length
        httpHeaderSent := 0
        chunkPrefixLen := 0
        chunkPrefixSent := 0
        chunkSuffixSent := 0
        finalChunkLen := 0
        finalChunkSent := 0 }, true)

/-- `prepare_chunk_prefix`; `false` when the size line does not fit. -/
def prepareChunkPrefix (c : CgiState) (chunkLen : Nat) : CgiState × Bool :=
  if chunkLen = 0 then
    ({ c with chunkPrefixLen := 0, chunkPrefixSent := 0, chunkSuffixSent := 0 }, true)
  else
    let text := numeral 16 chunkLen ++ CRLF
    if text.length ≥ CGI_CHUNK_PREFIX_SIZE then
      ({ c with chunkPrefix := c.chunkPrefix.write 0 (text.take (CGI_CHUNK_PREFIX_SIZE - 1) ++ [0]) },
        false)
    else
      ({ c with
          chunkPrefix := c.chunkPrefix.write 0 (text ++ [0])
          chunkPrefixLen := text.length
          chunkPrefixSent := 0
          chunkSuffixSent := 0 }, true)

/-- `ensure_final_chunk`. -/
def ensureFinalChunk (c : CgiState) : CgiState :=
  if c.finalChunkLen = 0 then
    { c with
      finalChunk := c.finalChunk.write 0 (ascii "0\r\n\r\n"), finalChunkLen := 5
      finalChunkSent := 0 }
  else c

/-! ## Reading the CGI output -/

/-- The search for the end of the CGI header: the offset after the first
`\n\n` or `\r\n\r\n` among the first `hl` bytes. -/
def findHeaderEnd (hdr : Mem UInt8) (hl : Nat) : Option Nat :=
  (List.range (hl - 1)).findSome? fun i =>
    if hdr i = LF ∧ hdr (i + 1) = LF then some (i + 2)
    else if i + 3 < hl ∧ hdr i = CR ∧ hdr (i + 1) = LF ∧ hdr (i + 2) = CR ∧ hdr (i + 3) = LF then
      some (i + 4)
    else none

/-- The lines of a header block, without their line feeds. -/
def splitLines : Bytes → List Bytes
  | [] => []
  | ch :: rest =>
    if ch = LF then [] :: splitLines rest
    else
      match splitLines rest with
      | [] => [[ch]]
      | l :: ls => (ch :: l) :: ls

/-- The loop over the header lines; none when a line does not fit `char line[512]`. -/
def readCgiHeader (status : Nat) (contentType : Bytes) : List Bytes → Option (Nat × Bytes)
  | [] => some (status, contentType)
  | line :: rest =>
    if line.length > 0 then
      if line.length ≥ 512 then none
      else
        readCgiHeader ((parseStatusCode line).getD status)
          ((parseContentType line 256).getD contentType) rest
    else readCgiHeader status contentType rest

/-- How `zv_cgi_on_stdout_ready` ends: with the client socket armed for writing,
with the pipe armed again, by closing the connection, or not yet. -/
inductive ReadExit
  | armClient | rearmPipe | closeConn | inCall
deriving DecidableEq, Repr

/-- The test for back-pressure: a chunk is not fully sent. -/
def unsentChunk (c : CgiState) : Bool :=
  c.bodyLen > 0 &&
    (c.chunkPrefixSent < c.chunkPrefixLen || c.bodySent < c.bodyLen || c.chunkSuffixSent < 2)

/-- A body piece of `len` bytes stands in `cgi_body_buf`. -/
def loadPiece (c : CgiState) (len : Nat) : CgiState × List Call × ReadExit :=
  match prepareChunkPrefix { c with bodyLen := len, bodySent := 0 } len with
  | (c, true) => (c, [.load (c.bodyBuf.slice 0 len)], .armClient)
  | (c, false) => (c, [], .closeConn)

/-- The CGI header is complete in `cgi_hdr_buf[0..bodyOff)`. -/
def finishHeader (c : CgiState) (bodyOff : Nat) : CgiState × List Call × ReadExit :=
  match readCgiHeader 200 [] (splitLines (c.hdrBuf.slice 0 bodyOff)) with
  | none => (c, [], .closeConn)
  | some (status, contentType) =>
    match buildHttpHeader c status contentType with
    | (c, false) => (c, [], .closeConn)
    | (c, true) =>
      let c := { c with headersDone := true }
      let remain := c.hdrLen - bodyOff
      if remain > 0 then
        let remain := if remain > CGI_BODY_SIZE then CGI_BODY_SIZE else remain
        match loadPiece
            { c with bodyBuf := c.bodyBuf.write 0 (c.hdrBuf.slice bodyOff (bodyOff + remain)) }
            remain with
        | (c, calls, .armClient) => ({ c with hdrLen := 0 }, calls, .armClient)
        | res => res
      else
        ({ (prepareChunkPrefix { c with bodyLen := 0, bodySent := 0 } 0).1 with hdrLen := 0 }, [],
          .armClient)

/-- The header is still incomplete: `d` is added to `cgi_hdr_buf` as far as it fits. -/
def collectHeader (c : CgiState) (d : Bytes) : CgiState × List Call × Option ReadExit :=
  let space := CGI_HDR_SIZE - c.hdrLen
  let copy := if d.length > space then space else d.length
  let c :=
    { c with hdrBuf := c.hdrBuf.write c.hdrLen (d.take copy), hdrLen := c.hdrLen + copy }
  match findHeaderEnd c.hdrBuf c.hdrLen with
  | some bodyOff =>
    let (c, calls, e) := finishHeader c bodyOff
    (c, calls, some e)
  | none =>
    if c.hdrLen ≥ CGI_HDR_SIZE then (c, [], some .closeConn) else (c, [], none)

/-- A read that returned the bytes `d`, at least one. -/
def onPipeBytes (c : CgiState) (d : Bytes) : CgiState × List Call × Option ReadExit :=
  let c := { c with bodyBuf := c.bodyBuf.write 0 d, outTotal := c.outTotal + d.length }
  if c.outTotal > c.outLimit then (c, [], some .closeConn)
  else if c.headersDone = false then collectHeader c d
  else
    let (c, calls, e) := loadPiece c d.length
    (c, calls, some e)

/-- A whole body `msg` in place of a CGI header that never came. -/
def loadMessage (c : CgiState) (status : Nat) (msg : Bytes) : CgiState × List Call × ReadExit :=
  match buildHttpHeader c status (ascii "text/plain") with
  | (c, false) => (c, [], .closeConn)
  | (c, true) =>
    match loadPiece { c with bodyBuf := c.bodyBuf.write 0 msg } msg.length with
    | (c, calls, .armClient) => ({ c with headersDone := true }, calls, .armClient)
    | res => res

/-- End of file on the pipe. -/
def onPipeEof (c : CgiState) : CgiState × List Call × ReadExit :=
  let closed := closeFd c.outFd
  let c := { c with eof := true, outFd := none }
  if c.headersDone = false then
    if c.hdrLen > 0 then
      -- The source builds the 200 header first and, for output that does not fit the
      -- body buffer, the 500 header over it.
      let (c, calls, e) :=
        if c.hdrLen > CGI_BODY_SIZE then loadMessage c 500 (ascii "cgi output too large\n")
        else loadMessage c 200 (c.hdrBuf.slice 0 c.hdrLen)
      match e with
      | .armClient => ({ c with hdrLen := 0 }, closed ++ calls, e)
      | e => (c, closed ++ calls, e)
    else
      let (c, calls, e) := loadMessage c 500 (ascii "cgi produced no output\n")
      (c, closed ++ calls, e)
  else (ensureFinalChunk c, closed, .armClient)

/-- The loop of `zv_cgi_on_stdout_ready`. -/
def readerLoop (c : CgiState) : List (Ans Bytes) → CgiState × List Call × ReadExit
  | [] => (c, [], if unsentChunk c then .rearmPipe else .inCall)
  | a :: answers =>
    if unsentChunk c then (c, [], .rearmPipe)
    else
      match a with
      | .ok bs =>
        let d := bs.take CGI_BODY_SIZE
        if d = [] then
          let (c, calls, e) := onPipeEof c
          (c, .pipeRead d :: calls, e)
        else
          match onPipeBytes c d with
          | (c, calls, some e) => (c, .pipeRead d :: calls, e)
          | (c, calls, none) =>
            let (c, more, e) := readerLoop c answers
            (c, .pipeRead d :: calls ++ more, e)
      | .eintr => readerLoop c answers
      | .eagain => (c, [], .rearmPipe)
      | .error => (c, [], .closeConn)

/-! ## Writing to the client -/

/-- How `zv_cgi_on_client_writable` ends: its return value `0`, `1`, `2` or `-1`,
or not yet. -/
inductive WriteExit
  | finished | wouldBlock | needMore | error | inCall
deriving DecidableEq, Repr

/-- The part `m[sent..len)` of a buffer as an `iovec` entry, when it is not empty. -/
def iovec (m : Mem UInt8) (sent len : Nat) : List Bytes :=
  if sent < len then [m.slice sent len] else []

/-- The `iovec` array of one pass, none when the pass leaves the loop at
`nothing to send right now`. -/
def clientIov (c : CgiState) : CgiState × Option (List Bytes) :=
  let hdr := iovec c.httpHeader c.httpHeaderSent c.httpHeaderLen
  if c.bodyLen > 0 then
    (c, some (hdr ++ iovec c.chunkPrefix c.chunkPrefixSent c.chunkPrefixLen ++
      iovec c.bodyBuf c.bodySent c.bodyLen ++
      (if c.chunkSuffixSent < 2 then [CRLF.drop c.chunkSuffixSent] else [])))
  else if c.eof then
    let c := ensureFinalChunk c
    (c, some (hdr ++ iovec c.finalChunk c.finalChunkSent c.finalChunkLen))
  else (c, none)

/-- The chunk counters after `left` bytes went to the chunk, and what is left over.
A fully sent chunk gives its buffer free. -/
def chargeChunk (c : CgiState) (left : Nat) : CgiState × Nat :=
  let (prefixSent, left) := advance c.chunkPrefixLen c.chunkPrefixSent left
  let (bodySent, left) := advance c.bodyLen c.bodySent left
  let (suffixSent, left) := advance 2 c.chunkSuffixSent left
  if prefixSent = c.chunkPrefixLen ∧ bodySent = c.bodyLen ∧ suffixSent = 2 then
    ({ c with
        bodyLen := 0, bodySent := 0, chunkPrefixLen := 0, chunkPrefixSent := 0
        chunkSuffixSent := 0 }, left)
  else
    ({ c with chunkPrefixSent := prefixSent, bodySent := bodySent, chunkSuffixSent := suffixSent },
      left)

/-- The header counter after `n` bytes went out, and what is left for the rest. -/
def chargeHeader (c : CgiState) (n : Nat) : CgiState × Nat :=
  let (headerSent, left) := advance c.httpHeaderLen c.httpHeaderSent n
  ({ c with httpHeaderSent := headerSent }, left)

/-- The branch `left > 0 && r->cgi_body_len > 0`. -/
def chargeBody (c : CgiState) (left : Nat) : CgiState × Nat :=
  if left > 0 ∧ c.bodyLen > 0 then chargeChunk c left else (c, left)

/-- The branch for the final chunk. -/
def chargeFinal (c : CgiState) (left : Nat) : CgiState :=
  if left > 0 ∧ c.eof ∧ c.bodyLen = 0 ∧ c.finalChunkLen > 0 then
    { c with finalChunkSent := (advance c.finalChunkLen c.finalChunkSent left).1 }
  else c

/-- The counters after `writev` returned `n > 0`. -/
def chargeSent (c : CgiState) (n : Nat) : CgiState :=
  let (c, left) := chargeHeader c n
  let (c, left) := chargeBody c left
  chargeFinal c left

/-- After the loop: what the return value is. -/
def writerEnd (c : CgiState) : CgiState × List Call × WriteExit :=
  if c.eof then
    let c := ensureFinalChunk c
    if c.finalChunkSent ≥ c.finalChunkLen then (c, [], .finished) else (c, [], .wouldBlock)
  else (c, [], .needMore)

/-- The loop of `zv_cgi_on_client_writable`. An answer `ok n` accepts `n` bytes, or
all that is offered if that is less. -/
def writerLoop (c : CgiState) : List (Ans Nat) → CgiState × List Call × WriteExit
  | [] =>
    match clientIov c with
    | (c, some (_ :: _)) => (c, [], .inCall)
    | (c, _) => writerEnd c
  | a :: answers =>
    match clientIov c with
    | (c, some (b :: iov)) =>
      match a with
      | .ok n =>
        let bs := (b :: iov).flatten.take n
        if bs = [] then (c, [], .error)
        else
          let (c, calls, e) := writerLoop (chargeSent c bs.length) answers
          (c, .writev bs :: calls, e)
      | .eintr => writerLoop c answers
      | .eagain => (c, [], .wouldBlock)
      | .error => (c, [], .error)
    | (c, _) => writerEnd c

/-! ## The callbacks -/

/-- `zv_cgi_on_stdout_ready`. The second component is false while the callback has
not returned. -/
def zvCgiOnStdoutReady (answers : List (Ans Bytes)) (reaped : Bool) (c : Conn) : Conn × Bool :=
  if c.r.cgi.active = false ∨ c.r.cgi.outFd = none then (c, true)
  else
    let c := c.delTimer
    let (cgi, calls, e) := readerLoop c.r.cgi answers
    let c := { c.emit calls with r := { c.r with cgi := cgi } }
    -- The descriptor that end of file closes takes its registration with it.
    let c := if cgi.outFd = none then { c with pipe := .off } else c
    match e with
    | .armClient => ((c.rearmEvent .epollout).addTimer c.r.requestTimeoutMs, true)
    | .rearmPipe =>
      let c := if cgi.active ∧ cgi.outFd ≠ none then c.watchPipe else c
      (c.addTimer c.r.requestTimeoutMs, true)
    | .closeConn => (zvHttpCloseConn reaped c, true)
    | .inCall => (c, false)

/-- `zv_cgi_on_client_writable`. -/
def zvCgiOnClientWritable (answers : List (Ans Nat)) (reaped : Bool) (c : Conn) :
    Conn × WriteExit :=
  if c.r.cgi.active = false then (c, .error)
  else
    let (cgi, calls, e) := writerLoop c.r.cgi answers
    let c := { c.emit calls with r := { c.r with cgi := cgi } }
    match e with
    | .finished =>
      let reap :=
        match cgi.pid with
        | some pid => [.waitpid pid reaped]
        | none => []
      (c.emit reap, .finished)
    | .needMore => (if cgi.outFd ≠ none then c.watchPipe else c, .needMore)
    | e => (c, e)

/-! ## Starting a script -/

/-- The system calls of `zv_cgi_start`: the two pipes as read and write ends, the
fork, and whether the read end could be made non-blocking. -/
structure CgiStartEnv where
  inPipe : Option (Fd × Fd)
  outPipe : Option (Fd × Fd)
  fork : Option Pid
  nonblocking : Bool

/-- `snprintf` into a buffer of `cap` bytes: what a reader of the buffer sees. -/
def snprintf (cap : Nat) (text : Bytes) : Bytes := text.take (cap - 1)

/-- The environment of the child. -/
def cgiEnvp (scriptFilename scriptName : Bytes) (queryString : Option Bytes) : List Bytes :=
  [ascii "GATEWAY_INTERFACE=CGI/1.1", ascii "SERVER_PROTOCOL=HTTP/1.1",
    ascii "SERVER_SOFTWARE=Zaver", ascii "REQUEST_METHOD=GET",
    snprintf 1024 (ascii "QUERY_STRING=" ++ cstr (queryString.getD [])),
    snprintf 1024 (ascii "SCRIPT_NAME=" ++ cstr scriptName),
    snprintf 2048 (ascii "SCRIPT_FILENAME=" ++ cstr scriptFilename)]

/-- The CGI fields of a connection whose child runs. -/
def startedCgi (c : CgiState) (pid : Pid) (outFd : Fd) : CgiState :=
  { c with
    active := true, pid := some pid, outFd := some outFd, eof := false, outTotal := 0
    headersDone := false, hdrLen := 0, httpHeaderLen := 0, httpHeaderSent := 0
    bodyLen := 0, bodySent := 0 }

/-- `zv_cgi_start`, the parent's side; `false` stands for `-1`. -/
def zvCgiStart (e : CgiStartEnv) (scriptFilename scriptName : Bytes)
    (queryString : Option Bytes) (c : Conn) : Conn × Bool :=
  match e.inPipe with
  | none => (c, false)
  | some (inR, inW) =>
    let c := c.emit [.pipe inR inW]
    match e.outPipe with
    | none => (c.emit [.close inR, .close inW], false)
    | some (outR, outW) =>
      let c := c.emit [.pipe outR outW]
      match e.fork with
      | none => (c.emit [.close inR, .close inW, .close outR, .close outW], false)
      | some pid =>
        let c := c.emit [.fork pid scriptFilename (cgiEnvp scriptFilename scriptName queryString),
          .close inR, .close outW]
        if e.nonblocking = false then
          (c.emit [.close inW, .close outR, .kill pid, .waitpid pid true], false)
        else
          let c := c.emit [.close inW]
          let c := { c with r := { c.r with cgi := startedCgi c.r.cgi pid outR } }
          let c := c.watchPipe
          let c := { c with r := { c.r with out := { c.r.out with keepAlive := false } } }
          (c.addTimer c.r.requestTimeoutMs, true)

end Zaver
