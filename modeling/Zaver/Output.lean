import Zaver.HttpPath

/-!
# Preparing and sending a response

The output side of `http.c`: `prepare_error` and `prepare_static` fill the output
state of a request, `try_send` moves it to the client socket, and `reset_output`
clears it. `try_send` may be cut short by a full socket; it is then called again
by `do_write`.

The answers of the kernel are consumed as in `Zaver.Cgi`. The text that
`localtime_r` and `strftime` make of a modification time is a parameter.
-/

namespace Zaver

open CString Chunked Gather

/-! ## Formatting -/

/-- `appendf` on a buffer of `cap` bytes that holds `buf`. -/
def appendf (cap : Nat) (buf text : Bytes) : Bytes :=
  if buf.length ≥ cap then buf
  else if text.length ≥ cap - buf.length then (buf ++ text).take (cap - 1)
  else buf ++ text

/-- Several `appendf` calls in a row. -/
def appendAll (cap : Nat) (texts : List Bytes) : Bytes := texts.foldl (appendf cap) []

/-- `keep_alive_timeout_sec`. -/
def keepAliveTimeoutSec (ms : Nat) : Int :=
  if ms = 0 then 0
  else
    let sec := wrapInt ((ms + 999) / 1000 : Nat)
    if sec < 1 then 1 else sec

/-- The value of a non-negative `int` under `%d`. -/
def printInt (x : Int) : Bytes := numeral 10 x.toNat

/-- The header lines that tell the client whether the connection stays open. -/
def connectionLines (keepAlive : Bool) (keepAliveTimeoutMs : Nat) : List Bytes :=
  if keepAlive then
    [ascii "Connection: keep-alive\r\n",
      ascii "Keep-Alive: timeout=" ++ printInt (keepAliveTimeoutSec keepAliveTimeoutMs) ++ CRLF]
  else [ascii "Connection: close\r\n"]

/-- `zaver_mime`. -/
def zaverMime : List (Bytes × Bytes) :=
  [(ascii ".html", ascii "text/html"), (ascii ".xml", ascii "text/xml"),
    (ascii ".xhtml", ascii "application/xhtml+xml"), (ascii ".txt", ascii "text/plain"),
    (ascii ".rtf", ascii "application/rtf"), (ascii ".pdf", ascii "application/pdf"),
    (ascii ".word", ascii "application/msword"), (ascii ".png", ascii "image/png"),
    (ascii ".gif", ascii "image/gif"), (ascii ".jpg", ascii "image/jpeg"),
    (ascii ".jpeg", ascii "image/jpeg"), (ascii ".au", ascii "audio/basic"),
    (ascii ".mpeg", ascii "video/mpeg"), (ascii ".mpg", ascii "video/mpeg"),
    (ascii ".avi", ascii "video/x-msvideo"), (ascii ".gz", ascii "application/x-gzip"),
    (ascii ".tar", ascii "application/x-tar"), (ascii ".css", ascii "text/css")]

/-- `strrchr(filename, '.')`. -/
def dotPos (filename : Bytes) : Option Bytes :=
  if '.'.toUInt8 ∈ filename then
    some ('.'.toUInt8 :: filename.rtakeWhile (· != '.'.toUInt8))
  else none

/-- `get_file_type`. -/
def getFileType (type : Option Bytes) : Bytes :=
  match type with
  | none => ascii "text/plain"
  | some ext => ((zaverMime.find? (·.1 = ext)).map (·.2)).getD (ascii "text/plain")

/-! ## Preparing -/

/-- `reset_output`. -/
def resetOutput (o : Output) : Output × List Call :=
  ({ o with
      writing := false
      outHeaderLen := 0, outHeaderSent := 0, outHeader := o.outHeader.write 0 [0]
      outBody := none, outBodyLen := 0, outBodySent := 0
      outFileFd := none, outFileOffset := 0, outFileSize := 0 }, closeFd o.outFileFd)

/-- The body of an error page. -/
def errorBody (page : ErrorPage) : Bytes :=
  appendAll MAXLINE
    [ascii "<html><title>Zaver Error</title>",
      ascii "<body bgcolor=\"ffffff\">\n",
      cstr page.errnum ++ ascii ": " ++ cstr page.shortmsg ++ ascii "\n",
      ascii "<p>" ++ cstr page.longmsg ++ ascii ": " ++ cstr page.cause ++ ascii "\n</p>",
      ascii "<hr><em>Zaver web server</em>\n</body></html>"]

/-- The lines of the header of an error page. -/
def errorLines (page : ErrorPage) (keepAlive : Bool) (keepAliveTimeoutMs : Nat) : List Bytes :=
  [ascii "HTTP/1.1 " ++ cstr page.errnum ++ ascii " " ++ cstr page.shortmsg ++ CRLF,
      ascii "Server: Zaver\r\n", ascii "Content-type: text/html\r\n"] ++
    connectionLines keepAlive keepAliveTimeoutMs ++
    [ascii "Content-length: " ++ numeral 10 (errorBody page).length ++ ascii "\r\n\r\n"]

/-- `prepare_error`; `malloc` tells whether the body could be allocated, `false` in the
result stands for `-1`. -/
def prepareError (malloc : Bool) (page : ErrorPage) (keepAlive : Bool) (keepAliveTimeoutMs : Nat)
    (o : Output) : Output × List Call × Bool :=
  let (o, calls) := resetOutput o
  let o := { o with keepAlive := keepAlive }
  if malloc = false then (o, calls, false)
  else
    let body := errorBody page
    let header := appendAll ZV_OUT_HEADER_SIZE (errorLines page keepAlive keepAliveTimeoutMs)
    ({ o with
        outBody := some body, outBodyLen := body.length, outBodySent := 0
        outHeader := o.outHeader.write 0 (header ++ [0])
        outHeaderLen := header.length, outHeaderSent := 0, outFileFd := none }, calls, true)

/-- The lines of the header of a static response. -/
def staticLines (strftime : Int → Bytes) (filename : Bytes) (filesize : UInt64) (out : HttpOut)
    (keepAliveTimeoutMs : Nat) : List Bytes :=
  [ascii "HTTP/1.1 " ++ numeral 10 out.status ++ ascii " " ++
      getShortmsgFromStatusCode out.status ++ CRLF] ++
    connectionLines out.keepAlive keepAliveTimeoutMs ++
    (if out.modified then
      [ascii "Content-type: " ++ getFileType (dotPos filename) ++ CRLF,
        ascii "Content-length: " ++ numeral 10 filesize.toNat ++ CRLF,
        ascii "Last-Modified: " ++ strftime out.mtime ++ CRLF]
    else []) ++
    [ascii "Server: Zaver\r\n", CRLF]

/-- `prepare_static`; `openAns` is the answer of `open`, `false` in the result stands
for `-1`. -/
def prepareStatic (strftime : Int → Bytes) (openAns : Option Fd) (filename : Bytes)
    (filesize : UInt64) (out : HttpOut) (keepAliveTimeoutMs : Nat) (o : Output) :
    Output × List Call × Bool :=
  let (o, calls) := resetOutput o
  let header := appendAll ZV_OUT_HEADER_SIZE
    (staticLines strftime filename filesize out keepAliveTimeoutMs)
  let o :=
    { o with
      keepAlive := out.keepAlive
      outHeader := o.outHeader.write 0 (header ++ [0])
      outHeaderLen := header.length, outHeaderSent := 0 }
  if out.modified = false then
    ({ o with outFileFd := none, outFileOffset := 0, outFileSize := 0 }, calls, true)
  else
    match openAns with
    | none => (o, calls, false)
    | some fd =>
      ({ o with outFileFd := some fd, outFileOffset := 0, outFileSize := filesize.toNat },
        calls ++ [.openFile filename fd], true)

/-! ## Sending -/

/-- How `try_send` ends: its return value `0`, `1` or `-1`, or not yet. -/
inductive SendRc
  | done | again | fail | inCall
deriving DecidableEq, Repr

/-- The answers of the kernel to one call of `try_send`. -/
structure SendEnv where
  writes : List (Ans Nat)
  files : List (Ans Bytes)

/-- The part of the body that is not sent. -/
def bodyRest (o : Output) : Bytes :=
  match o.outBody with
  | some body => (body.take o.outBodyLen).drop o.outBodySent
  | none => []

/-- `r->out_body && r->out_body_sent < r->out_body_len`. -/
def bodyPending (o : Output) : Bool := o.outBody.isSome && o.outBodySent < o.outBodyLen

/-- The condition of the first loop. -/
def memPending (o : Output) : Bool := o.outHeaderSent < o.outHeaderLen || bodyPending o

/-- What the first loop offers to `writev`. -/
def sendIov (o : Output) : Bytes :=
  (if o.outHeaderSent < o.outHeaderLen then o.outHeader.slice o.outHeaderSent o.outHeaderLen
    else []) ++
  (if bodyPending o then bodyRest o else [])

/-- The counters after `writev` returned `n > 0`. -/
def chargeOut (o : Output) (n : Nat) : Output :=
  let (headerSent, left) := advance o.outHeaderLen o.outHeaderSent n
  let o := { o with outHeaderSent := headerSent }
  if left > 0 ∧ bodyPending o then
    { o with outBodySent := (advance o.outBodyLen o.outBodySent left).1 }
  else o

/-- The first loop of `try_send`. No return value means that the loop was left. -/
def trySendMem (o : Output) : List (Ans Nat) → Output × List Call × Option SendRc
  | [] => (o, [], if memPending o then some .inCall else none)
  | a :: answers =>
    if memPending o then
      match a with
      | .ok n =>
        let bs := (sendIov o).take n
        if bs = [] then (o, [], some .fail)
        else
          let (o, calls, rc) := trySendMem (chargeOut o bs.length) answers
          (o, .writev bs :: calls, rc)
      | .eintr => trySendMem o answers
      | .eagain => (o, [], some .again)
      | .error => (o, [], some .fail)
    else (o, [], none)

/-- The condition of the second loop. -/
def filePending (o : Output) : Bool := o.outFileFd.isSome && o.outFileOffset < o.outFileSize

/-- The second loop of `try_send`. An answer `ok bs` sends the bytes `bs` of the file,
at most as many as were asked for; `ok []` is the return value `0`. -/
def trySendFile (o : Output) : List (Ans Bytes) → Output × List Call × SendRc
  | [] => (o, [], if filePending o then .inCall else .done)
  | a :: answers =>
    if filePending o then
      match a with
      | .ok bs =>
        let d := bs.take (o.outFileSize - o.outFileOffset)
        if d = [] then (o, [.sendfile d], .done)
        else
          let (o, calls, rc) :=
            trySendFile { o with outFileOffset := o.outFileOffset + d.length } answers
          (o, .sendfile d :: calls, rc)
      | .eintr => trySendFile o answers
      | .eagain => (o, [], .again)
      | .error => (o, [], .fail)
    else (o, [], .done)

/-- `try_send`. -/
def trySend (e : SendEnv) (o : Output) : Output × List Call × SendRc :=
  match trySendMem o e.writes with
  | (o, calls, some rc) => (o, calls, rc)
  | (o, calls, none) =>
    let (o, more, rc) := trySendFile o e.files
    (o, calls ++ more, rc)

end Zaver
