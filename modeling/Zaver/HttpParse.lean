import Zaver.Lib.Scan
import Zaver.Request

/-!
# The request parser

`zv_http_parse_request_line` and `zv_http_parse_request_body` of
`http_parse.c`: two automata over the unparsed part of the receive window. Each
keeps its state in the request block, so a call that runs out of bytes returns
`ZV_AGAIN` and the next call goes on in the middle of a token.

`lineByte` and `headerByte` are the bodies of the two `switch` statements, one
byte at a time; `lineRun` and `headerRun` the loops around them. `parsePhases` is
the part of `do_request` that calls them. Allocation of a header node is taken
to succeed.
-/

namespace Zaver

open CString

/-- `ZV_OK`. -/
def ZV_OK : Int := 0

/-- `ZV_AGAIN`, which is `EAGAIN`. -/
def ZV_AGAIN : Int := 11

/-- The `return` statements of the parsers, by the name that each gives its code. -/
inductive ParseRc
  | ok | again | invalidMethod | invalidRequest | invalidHeader
deriving DecidableEq, Repr

/-- The code that is returned. `ZV_HTTP_PARSE_INVALID_REQUEST` has the value of `ZV_AGAIN`:
a caller cannot tell the two apart. -/
def ParseRc.code : ParseRc → Int
  | .ok => ZV_OK
  | .again => ZV_AGAIN
  | .invalidMethod => 10
  | .invalidRequest => 11
  | .invalidHeader => 12

/-- What one byte does: go on in a state, leave through `done`, or return an error. -/
abbrev ByteStep (σ : Type) := Scan.Step Input σ ParseRc

/-- The unparsed bytes: the loop `for (pi = parse_pos; pi < last; pi++)` over
`buf[pi % MAX_BUF]`. -/
def Input.window (i : Input) : Bytes :=
  (List.range' i.parsePos (i.last - i.parsePos)).map fun pi => i.buf (pi % MAX_BUF)

/-- `(ch < 'A' || ch > 'Z') && ch != '_'`. -/
def notMethodChar (ch : UInt8) : Bool :=
  (ch < 'A'.toUInt8 || ch > 'Z'.toUInt8) && ch != '_'.toUInt8

/-- `ch < lo || ch > '9'`. -/
def notDigit (lo ch : UInt8) : Bool := ch < lo || ch > '9'.toUInt8

/-- The `switch (p - m)` at the space after the method token. Each macro compares
the four bytes at `m`; a token of length 3 or 4 that matches none leaves
`r->method` as it was. -/
def setMethod (i : Input) (m p : Nat) : Input :=
  if p - m = 3 then
    if i.buf.slice m (m + 4) = ascii "GET " then { i with method := .get } else i
  else if p - m = 4 then
    if i.buf.slice m (m + 4) = ascii "POST" then { i with method := .post }
    else if i.buf.slice m (m + 4) = ascii "HEAD" then { i with method := .head }
    else i
  else { i with method := .unknown }

/-- The body of the loop of `zv_http_parse_request_line`, at offset `p`. -/
def lineByte (i : Input) (state : LineState) (p : Nat) (ch : UInt8) : ByteStep LineState :=
  match state with
  | .swStart =>
    let i := { i with requestStart := some p }
    if ch == CR || ch == LF then .next i .swStart
    else if notMethodChar ch then .fail i .invalidMethod
    else .next i .swMethod
  | .swMethod =>
    if ch == ' '.toUInt8 then
      .next (setMethod { i with methodEnd := some p } (i.requestStart.getD 0) p) .swSpacesBeforeUri
    else if notMethodChar ch then .fail i .invalidMethod
    else .next i .swMethod
  | .swSpacesBeforeUri =>
    if ch == '/'.toUInt8 then .next { i with uriStart := some p } .swAfterSlashInUri
    else if ch == ' '.toUInt8 then .next i .swSpacesBeforeUri
    else .fail i .invalidRequest
  | .swAfterSlashInUri =>
    if ch == ' '.toUInt8 then .next { i with uriEnd := some p } .swHttp
    else .next i .swAfterSlashInUri
  | .swHttp =>
    if ch == ' '.toUInt8 then .next i .swHttp
    else if ch == 'H'.toUInt8 then .next i .swHttpH
    else .fail i .invalidRequest
  | .swHttpH => if ch == 'T'.toUInt8 then .next i .swHttpHT else .fail i .invalidRequest
  | .swHttpHT => if ch == 'T'.toUInt8 then .next i .swHttpHTT else .fail i .invalidRequest
  | .swHttpHTT => if ch == 'P'.toUInt8 then .next i .swHttpHTTP else .fail i .invalidRequest
  | .swHttpHTTP => if ch == '/'.toUInt8 then .next i .swFirstMajorDigit else .fail i .invalidRequest
  | .swFirstMajorDigit =>
    if notDigit '1'.toUInt8 ch then .fail i .invalidRequest
    else .next { i with httpMajor := ch.toNat - 48 } .swMajorDigit
  | .swMajorDigit =>
    if ch == '.'.toUInt8 then .next i .swFirstMinorDigit
    else if notDigit '0'.toUInt8 ch then .fail i .invalidRequest
    else .next { i with httpMajor := wrapInt (i.httpMajor * 10 + ch.toNat - 48) } .swMajorDigit
  | .swFirstMinorDigit =>
    if notDigit '0'.toUInt8 ch then .fail i .invalidRequest
    else .next { i with httpMinor := ch.toNat - 48 } .swMinorDigit
  | .swMinorDigit =>
    if ch == CR then .next i .swAlmostDone
    else if ch == LF then .done i
    else if ch == ' '.toUInt8 then .next i .swSpacesAfterDigit
    else if notDigit '0'.toUInt8 ch then .fail i .invalidRequest
    else .next { i with httpMinor := wrapInt (i.httpMinor * 10 + ch.toNat - 48) } .swMinorDigit
  | .swSpacesAfterDigit =>
    if ch == ' '.toUInt8 then .next i .swSpacesAfterDigit
    else if ch == CR then .next i .swAlmostDone
    else if ch == LF then .done i
    else .fail i .invalidRequest
  | .swAlmostDone =>
    let i := { i with requestEnd := some (p - 1) }
    if ch == LF then .done i else .fail i .invalidRequest

/-- The loop of `zv_http_parse_request_line` over the bytes from offset `pi` on. -/
def lineRun (i : Input) (state : LineState) (pi : Nat) : Bytes → Input × ParseRc
  | [] => ({ i with parsePos := pi, requestLineState := state }, .again)
  | ch :: rest =>
    match lineByte i state pi ch with
    | .next i state => lineRun i state (pi + 1) rest
    | .done i =>
      ({ i with
          parsePos := pi + 1
          requestEnd := i.requestEnd.or (some pi)
          requestLineState := .swStart }, .ok)
    | .fail i rc => (i, rc)

/-- `zv_http_parse_request_line`. -/
def zvHttpParseRequestLine (i : Input) : Input × ParseRc :=
  lineRun i i.requestLineState i.parsePos i.window

/-- The body of the loop of `zv_http_parse_request_body`, at offset `p`. -/
def headerByte (i : Input) (state : HeaderState) (p : Nat) (ch : UInt8) : ByteStep HeaderState :=
  match state with
  | .swStart =>
    if ch == CR then .next i .swCrlfcr
    else if ch == LF then .fail i .invalidHeader
    else .next { i with curHeaderKeyStart := some p } .swKey
  | .swKey =>
    if ch == ' '.toUInt8 then .next { i with curHeaderKeyEnd := some p } .swSpacesBeforeColon
    else if ch == ':'.toUInt8 then .next { i with curHeaderKeyEnd := some p } .swSpacesAfterColon
    else .next i .swKey
  | .swSpacesBeforeColon =>
    if ch == ' '.toUInt8 then .next i .swSpacesBeforeColon
    else if ch == ':'.toUInt8 then .next i .swSpacesAfterColon
    else .fail i .invalidHeader
  | .swSpacesAfterColon =>
    if ch == ' '.toUInt8 then .next i .swSpacesAfterColon
    else .next { i with curHeaderValueStart := some p } .swValue
  | .swValue =>
    if ch == CR then .next { i with curHeaderValueEnd := some p } .swCr
    else if ch == LF then .fail i .invalidHeader
    else .next i .swValue
  | .swCr =>
    if ch == LF then
      let hd : Header :=
        { keyStart := i.curHeaderKeyStart, keyEnd := i.curHeaderKeyEnd
          valueStart := i.curHeaderValueStart, valueEnd := i.curHeaderValueEnd }
      .next { i with list := hd :: i.list } .swCrlf
    else .fail i .invalidHeader
  | .swCrlf =>
    if ch == CR then .next i .swCrlfcr
    else .next { i with curHeaderKeyStart := some p } .swKey
  | .swCrlfcr => if ch == LF then .done i else .fail i .invalidHeader

/-- The loop of `zv_http_parse_request_body` over the bytes from offset `pi` on. -/
def headerRun (i : Input) (state : HeaderState) (pi : Nat) : Bytes → Input × ParseRc
  | [] => ({ i with parsePos := pi, headerState := state }, .again)
  | ch :: rest =>
    match headerByte i state pi ch with
    | .next i state => headerRun i state (pi + 1) rest
    | .done i => ({ i with parsePos := pi + 1, headerState := .swStart }, .ok)
    | .fail i rc => (i, rc)

/-- `zv_http_parse_request_body`. -/
def zvHttpParseRequestBody (i : Input) : Input × ParseRc :=
  headerRun i i.headerState i.parsePos i.window

/-- The second `if` of the phase machine of `do_request`. -/
def headerPhase (i : Input) : Input × ParseRc :=
  if i.parsePhase = .headers then
    match zvHttpParseRequestBody i with
    | (i, .ok) => ({ i with parsePhase := .ready }, .ok)
    | (i, rc) => (i, rc)
  else (i, .ok)

/-- The phase machine of `do_request`: `ZV_OK` when the request is complete. -/
def parsePhases (i : Input) : Input × ParseRc :=
  if i.parsePhase = .line then
    match zvHttpParseRequestLine i with
    | (i, .ok) => headerPhase { i with parsePhase := .headers }
    | (i, rc) => (i, rc)
  else headerPhase i

end Zaver
