import Zaver.Lib.DotSegments
import Zaver.Cgi

/-!
# From a URI to a file name

The path functions of `http.c`: `percent_decode`, `normalize_abs_path`, `parse_uri`,
`is_path_under_root_real`, and the part of `handle_cgi_mvp` that maps a URI to a
script. A C string that is built here holds no NUL byte, because `percent_decode`
lets none through, so its `strlen` is the length of the list.
-/

namespace Zaver

open CString DotSegments

/-- `'/'`. -/
def SLASH : UInt8 := '/'.toUInt8

/-- `hex_val`. -/
def hexVal (c : UInt8) : Option Nat :=
  if c ≥ '0'.toUInt8 ∧ c ≤ '9'.toUInt8 then some (c.toNat - '0'.toNat)
  else if c ≥ 'a'.toUInt8 ∧ c ≤ 'f'.toUInt8 then some (10 + (c.toNat - 'a'.toNat))
  else if c ≥ 'A'.toUInt8 ∧ c ≤ 'F'.toUInt8 then some (10 + (c.toNat - 'A'.toNat))
  else none

/-- One decoded byte is checked and stored. -/
def putDecoded (outCap : Nat) (out : Bytes) (ch : UInt8) : Option Bytes :=
  if ch = 0 ∨ ch = '\\'.toUInt8 ∨ ch = CR ∨ ch = LF then none
  else if out.length + 1 ≥ outCap then none
  else some (out ++ [ch])

/-- The loop of `percent_decode`. -/
def percentDecodeLoop (outCap : Nat) (out : Bytes) : Bytes → Option Bytes
  | [] => some out
  | ch :: rest =>
    if ch = '%'.toUInt8 then
      match rest with
      | h :: l :: rest =>
        match hexVal h, hexVal l with
        | some hi, some lo =>
          (putDecoded outCap out (UInt8.ofNat (hi * 16 + lo))).bind fun out =>
            percentDecodeLoop outCap out rest
        | _, _ => none
      | _ => none
    else (putDecoded outCap out ch).bind fun out => percentDecodeLoop outCap out rest

/-- `percent_decode`. -/
def percentDecode (s : Bytes) (outCap : Nat) : Option Bytes :=
  if outCap = 0 then none else percentDecodeLoop outCap [] s

/-- The bytes written to `out` and the stack of lengths, newest first. -/
structure NormState where
  out : Bytes
  stack : List Nat

/-- The body of the loop of `normalize_abs_path` for one segment. -/
def normSegment (outCap : Nat) (s : NormState) (seg : Bytes) : Option NormState :=
  if seg = ascii "." then some s
  else if seg = ascii ".." then
    match s.stack with
    | [] => none
    | _ :: stack => some { out := s.out.take (stack.headD 1), stack := stack }
  else if s.out.length > 1 ∧ s.out.length + 1 ≥ outCap then none
  else
    let out := if s.out.length > 1 then s.out ++ [SLASH] else s.out
    if out.length + seg.length ≥ outCap then none
    else if s.stack.length ≥ 256 then none
    else some { out := out ++ seg, stack := (out ++ seg).length :: s.stack }

/-- `normalize_abs_path`. Its loop visits the non-empty runs of bytes other than `/`. -/
def normalizeAbsPath (path : Bytes) (outCap : Nat) : Option Bytes :=
  if outCap < 2 then none
  else if path.head? ≠ some SLASH then none
  else
    match (segments SLASH path.tail).foldlM (normSegment outCap) ⟨[SLASH], []⟩ with
    | none => none
    | some s =>
      if path.getLast? = some SLASH ∧ s.out.length > 1 ∧ s.out.getLast? ≠ some SLASH then
        if s.out.length + 1 ≥ outCap then none else some (s.out ++ [SLASH])
      else some s.out

/-- The URI up to its first `?`. -/
def uriPath (uri : Bytes) : Bytes := uri.takeWhile (· != '?'.toUInt8)

/-- The decoded and normalized path of a URI, as both branches compute it. -/
def uriNorm (uri : Bytes) : Option Bytes :=
  (percentDecode (uriPath uri) SHORTLINE).bind fun decoded => normalizeAbsPath decoded SHORTLINE

/-- The file a normalized path names: a directory gets `index.html`, and so does a
last component without an extension. -/
def pathFinal (norm : Bytes) : Option Bytes :=
  if norm.length = 0 then none
  else
    let isDir := norm.getLast? = some SLASH
    let lastComp := norm.rtakeWhile (· != SLASH)
    let path :=
      if ¬ isDir ∧ '.'.toUInt8 ∉ lastComp then snprintf SHORTLINE (norm ++ [SLASH])
      else snprintf SHORTLINE norm
    if path.length = 0 then none
    else if path.getLast? = some SLASH then
      if path.length + 10 + 1 ≥ SHORTLINE then none else some (path ++ ascii "index.html")
    else some path

/-- `parse_uri`. -/
def parseUri (root : Option Bytes) (uri : Bytes) (filenameCap : Nat) : Option Bytes :=
  match root with
  | none => none
  | some root =>
    let root := cstr root
    if filenameCap = 0 then none
    else if uri.length = 0 then none
    else if uri.length > SHORTLINE / 2 then none
    else if (uriPath uri).length = 0 then none
    else
      match percentDecode (uriPath uri) SHORTLINE with
      | none => none
      | some decoded =>
        if decoded.head? ≠ some SLASH then none
        else
          match (normalizeAbsPath decoded SHORTLINE).bind pathFinal with
          | none => none
          | some path =>
            let part :=
              if root.getLast? = some SLASH ∧ path.head? = some SLASH then path.drop 1 else path
            if (root ++ part).length ≥ filenameCap then none else some (root ++ part)

/-- `is_path_under_root_real`, with `realpath` as the file system answers it. -/
def isPathUnderRootReal (realpath : Bytes → Option Bytes) (root : Option Bytes) (path : Bytes) :
    Bool :=
  match root with
  | none => false
  | some root =>
    match realpath root, realpath path with
    | some rootReal, some pathReal =>
      strncmpEq pathReal rootReal rootReal.length &&
        ((pathReal.drop rootReal.length).headD 0 == 0 ||
          (pathReal.drop rootReal.length).headD 0 == SLASH)
    | _, _ => false

/-! ## The CGI branch -/

/-- The test of `handle_cgi_mvp` for a CGI request, on the raw bytes. -/
def isCgiUri (uri : Bytes) : Bool :=
  (uriPath uri).length ≥ 9 && strncmpEq uri (ascii "/cgi-bin/") 9

/-- The arguments of `prepare_error` apart from the keep-alive flag. -/
structure ErrorPage where
  cause : Bytes
  errnum : Bytes
  shortmsg : Bytes
  longmsg : Bytes
deriving DecidableEq, Repr

/-- `printf("%s", root)`; the C library prints a null pointer as `(null)`. -/
def rootText (root : Option Bytes) : Bytes :=
  match root with
  | some root => cstr root
  | none => ascii "(null)"

/-- The part of `handle_cgi_mvp` from the length check of the script name to the
file name that is looked up. -/
def cgiFilename (root : Option Bytes) (uri : Bytes) (filenameCap : Nat) : Except ErrorPage Bytes :=
  if (uriPath uri).length ≥ SHORTLINE then
    .error ⟨ascii "cgi uri too long", ascii "400", ascii "Bad Request", ascii "cgi uri too long"⟩
  else
    match percentDecode (uriPath uri) SHORTLINE with
    | none =>
      .error ⟨ascii "invalid cgi uri", ascii "400", ascii "Bad Request", ascii "invalid cgi uri"⟩
    | some decoded =>
      match normalizeAbsPath decoded SHORTLINE with
      | none =>
        .error ⟨ascii "invalid cgi uri", ascii "400", ascii "Bad Request", ascii "invalid cgi uri"⟩
      | some norm =>
        if strncmpEq norm (ascii "/cgi-bin/") 9 = false then
          .error ⟨ascii "invalid cgi uri", ascii "403", ascii "Forbidden", ascii "invalid cgi uri"⟩
        else if (rootText root ++ norm).length ≥ filenameCap then
          .error
            ⟨ascii "cgi path too long", ascii "400", ascii "Bad Request", ascii "cgi path too long"⟩
        else .ok (rootText root ++ norm)

/-- `QUERY_STRING`: the bytes behind the `?`, cut to the buffer. -/
def cgiQueryString (uri : Bytes) : Option Bytes :=
  let q := uri.drop ((uriPath uri).length + 1)
  if (uriPath uri).length < uri.length ∧ q.length > 0 then some (q.take (SHORTLINE - 1)) else none

end Zaver
