import Zaver.Lib.HeaderBlock
import Zaver.Output

/-!
# The header of a response

`prepare_error` and `prepare_static` write the header line by line with `appendf`, which
cuts what does not fit. For the texts that the program passes everything fits, and the
result is a header block (`errorHeader_eq`, `staticHeader_eq`). A reader finds two
fields in it: `Prepared.announced_eq` relates the announced length to the payload, and
`Prepared.connection_eq` the announced persistence to the flag that decides it.
-/

namespace Zaver

open CString Chunked HeaderBlock

/-! ## What a header says -/

/-- The value of the first `Content-length` line of a header. -/
def contentLength (header : Bytes) : Option Nat :=
  (field (ascii "Content-length: ") header).bind (parseNumeral 10)

/-- The number of payload bytes a header announces. -/
def announced (header : Bytes) : Nat := (contentLength header).getD 0

/-- The value of the first `Connection` line of a header. -/
def connectionField (header : Bytes) : Option Bytes := field (ascii "Connection: ") header

/-- The value that stands for a persistence flag. -/
def connectionText (keepAlive : Bool) : Bytes :=
  if keepAlive then ascii "keep-alive" else ascii "close"

/-- The status texts that the program passes to `prepare_error`. -/
def errorStatuses : List (Bytes × Bytes) :=
  [(ascii "400", ascii "Bad Request"), (ascii "403", ascii "Forbidden"),
    (ascii "404", ascii "Not Found"), (ascii "405", ascii "Method Not Allowed"),
    (ascii "500", ascii "Internal Server Error")]

/-- A response that was prepared: an error page with one of the program's status texts, or
a static response. The status is an `int`, and `strftime` fills a buffer of
`SHORTLINE` bytes. -/
inductive Prepared : Output → Prop
  | error (page : ErrorPage) (keepAlive : Bool) (ms : Nat) (o : Output) :
      (page.errnum, page.shortmsg) ∈ errorStatuses →
      Prepared (prepareError true page keepAlive ms o).1
  | static (strftime : Int → Bytes) (openAns : Option Fd) (filename : Bytes) (filesize : UInt64)
      (out : HttpOut) (ms : Nat) (o : Output) :
      (strftime out.mtime).length < SHORTLINE → out.status < 2 ^ 31 →
      (prepareStatic strftime openAns filename filesize out ms o).2.2 = true →
      Prepared (prepareStatic strftime openAns filename filesize out ms o).1

/-- The header of the response. -/
def headerText (o : Output) : Bytes := o.outHeader.slice 0 o.outHeaderLen

/-- The number of bytes behind the header: the body in memory and the file. -/
def payloadSize (o : Output) : Nat :=
  (bodyRest o).length + if o.outFileFd.isSome then o.outFileSize else 0

/-- The lines of `connectionLines` without their ends. -/
def connectionFields (keepAlive : Bool) (ms : Nat) : List Bytes :=
  if keepAlive then
    [ascii "Connection: " ++ ascii "keep-alive",
      ascii "Keep-Alive: timeout=" ++ printInt (keepAliveTimeoutSec ms)]
  else [ascii "Connection: " ++ ascii "close"]

/-- The lines of `errorLines` without their ends. -/
def errorFields (page : ErrorPage) (keepAlive : Bool) (ms : Nat) : List Bytes :=
  [ascii "HTTP/1.1 " ++ cstr page.errnum ++ ascii " " ++ cstr page.shortmsg,
      ascii "Server: Zaver", ascii "Content-type: text/html"] ++
    connectionFields keepAlive ms ++
    [ascii "Content-length: " ++ numeral 10 (errorBody page).length]

/-- The lines of `staticLines` without their ends. -/
def staticFields (strftime : Int → Bytes) (filename : Bytes) (filesize : UInt64) (out : HttpOut)
    (ms : Nat) : List Bytes :=
  [ascii "HTTP/1.1 " ++ numeral 10 out.status ++ ascii " " ++
      getShortmsgFromStatusCode out.status] ++
    connectionFields out.keepAlive ms ++
    (if out.modified then
      [ascii "Content-type: " ++ getFileType (dotPos filename),
        ascii "Content-length: " ++ numeral 10 filesize.toNat,
        ascii "Last-Modified: " ++ strftime out.mtime]
    else []) ++
    [ascii "Server: Zaver"]

namespace ResponseHeaderLemmas

/-! ### `appendf` -/

theorem foldl_appendf_fits {cap : Nat} (texts : List Bytes) (buf : Bytes)
    (h : (buf ++ texts.flatten).length < cap) :
    texts.foldl (appendf cap) buf = buf ++ texts.flatten := by
  induction texts generalizing buf with
  | nil => simp
  | cons t ts ih =>
    rw [List.flatten_cons, ← List.append_assoc] at h
    have hlen : (buf ++ t).length < cap := by
      rw [List.length_append] at h
      omega
    have happ : appendf cap buf t = buf ++ t := by
      rw [List.length_append] at hlen
      rw [appendf, if_neg (by omega), if_neg (by omega)]
    rw [List.foldl_cons, happ, ih (buf ++ t) h, List.flatten_cons, List.append_assoc]

/-- Nothing is cut when everything fits. -/
theorem appendAll_fits {cap : Nat} {texts : List Bytes} (h : texts.flatten.length < cap) :
    appendAll cap texts = texts.flatten := by
  have hfold := foldl_appendf_fits texts [] (by rwa [List.nil_append])
  rwa [List.nil_append] at hfold

theorem length_appendf_lt {cap : Nat} {buf : Bytes} (hc : 0 < cap) (h : buf.length < cap)
    (text : Bytes) : (appendf cap buf text).length < cap := by
  unfold appendf
  rw [if_neg (by omega)]
  split
  · rw [List.length_take]
    omega
  · rw [List.length_append]
    omega

theorem length_errorBody_lt (page : ErrorPage) : (errorBody page).length < MAXLINE := by
  have hc : 0 < MAXLINE := by decide
  have hfold : ∀ (texts : List Bytes) (buf : Bytes), buf.length < MAXLINE →
      (texts.foldl (appendf MAXLINE) buf).length < MAXLINE := by
    intro texts
    induction texts with
    | nil => exact fun buf h => h
    | cons t ts ih => exact fun buf h => ih _ (length_appendf_lt hc h t)
  exact hfold _ [] hc

/-! ### The lines fit -/

theorem length_printInt_le (ms : Nat) : (printInt (keepAliveTimeoutSec ms)).length ≤ 10 := by
  have hlt : (keepAliveTimeoutSec ms).toNat < 10 ^ 10 := by
    unfold keepAliveTimeoutSec
    split
    · decide
    · have hb := Int.bmod_lt (x := (((ms + 999) / 1000 : Nat) : Int)) (m := 2 ^ 32) (by decide)
      have hb' : wrapInt ((ms + 999) / 1000 : Nat) < 10 ^ 10 := by
        unfold wrapInt
        omega
      dsimp only
      split
      · decide
      · omega
  exact length_numeral_le (by decide) (by decide) hlt

theorem length_connectionFields_le (keepAlive : Bool) (ms : Nat) :
    ((connectionFields keepAlive ms).flatMap (· ++ CRLF)).length ≤ 80 := by
  have hp := length_printInt_le ms
  unfold connectionFields
  cases keepAlive with
  | true =>
    simp only [if_true, List.flatMap_cons, List.flatMap_nil, List.length_append, List.length_nil]
    have h1 : (ascii "Connection: ").length = 12 := by decide
    have h2 : (ascii "keep-alive").length = 10 := by decide
    have h3 : (ascii "Keep-Alive: timeout=").length = 20 := by decide
    have h4 : CRLF.length = 2 := rfl
    omega
  | false =>
    rw [if_neg (fun h => by cases h)]
    decide

theorem connectionLines_flatten (keepAlive : Bool) (ms : Nat) :
    (connectionLines keepAlive ms).flatten = (connectionFields keepAlive ms).flatMap (· ++ CRLF) := by
  unfold connectionLines connectionFields
  cases keepAlive with
  | true =>
    have h : ascii "Connection: keep-alive\r\n" = ascii "Connection: " ++ ascii "keep-alive" ++ CRLF := by
      decide
    simp [h]
  | false =>
    have h : ascii "Connection: close\r\n" = ascii "Connection: " ++ ascii "close" ++ CRLF := by decide
    simp [h]

theorem errorLines_flatten (page : ErrorPage) (keepAlive : Bool) (ms : Nat) :
    (errorLines page keepAlive ms).flatten = block (errorFields page keepAlive ms) := by
  have h1 : ascii "Server: Zaver\r\n" = ascii "Server: Zaver" ++ CRLF := by decide
  have h2 : ascii "Content-type: text/html\r\n" = ascii "Content-type: text/html" ++ CRLF := by decide
  have h3 : ascii "\r\n\r\n" = CRLF ++ CRLF := by decide
  unfold errorLines errorFields block
  simp [connectionLines_flatten, h1, h2, h3, List.append_assoc]

theorem staticLines_flatten (strftime : Int → Bytes) (filename : Bytes) (filesize : UInt64)
    (out : HttpOut) (ms : Nat) :
    (staticLines strftime filename filesize out ms).flatten =
      block (staticFields strftime filename filesize out ms) := by
  have h1 : ascii "Server: Zaver\r\n" = ascii "Server: Zaver" ++ CRLF := by decide
  unfold staticLines staticFields block
  cases out.modified with
  | true => simp [connectionLines_flatten, h1, List.append_assoc]
  | false => simp [connectionLines_flatten, h1, List.append_assoc]

/-- The status texts are short lines. -/
theorem errorStatus_line {page : ErrorPage} (h : (page.errnum, page.shortmsg) ∈ errorStatuses) :
    (cstr page.errnum).length ≤ 30 ∧ (cstr page.shortmsg).length ≤ 30 ∧
      PlainLine (cstr page.errnum) ∧ PlainLine (cstr page.shortmsg) := by
  have hall : ∀ p ∈ errorStatuses, (cstr p.1).length ≤ 30 ∧ (cstr p.2).length ≤ 30 ∧
      PlainLine (cstr p.1) ∧ PlainLine (cstr p.2) := by decide
  exact hall _ h

theorem length_fileType_le (type : Option Bytes) : (getFileType type).length ≤ 30 := by
  have hall : ∀ p ∈ zaverMime, p.2.length ≤ 30 := by decide
  unfold getFileType
  cases type with
  | none => decide
  | some ext =>
    dsimp only
    cases hf : zaverMime.find? (·.1 = ext) with
    | none => decide
    | some p => exact hall p (List.mem_of_find?_eq_some hf)

theorem length_shortmsg_le (status : Nat) : (getShortmsgFromStatusCode status).length ≤ 30 := by
  unfold getShortmsgFromStatusCode
  split
  · decide
  split
  · decide
  split
  · decide
  · decide

/-- The header of an error page is written in full. -/
theorem errorHeader_eq {page : ErrorPage} (h : (page.errnum, page.shortmsg) ∈ errorStatuses)
    (keepAlive : Bool) (ms : Nat) :
    appendAll ZV_OUT_HEADER_SIZE (errorLines page keepAlive ms) =
      block (errorFields page keepAlive ms) := by
  obtain ⟨h1, h2, -, -⟩ := errorStatus_line h
  have h3 := length_connectionFields_le keepAlive ms
  have h4 : (numeral 10 (errorBody page).length).length ≤ 4 := by
    have hb := length_errorBody_lt page
    unfold MAXLINE at hb
    exact length_numeral_le (by decide) (by decide) (by omega)
  rw [← errorLines_flatten]
  refine appendAll_fits ?_
  rw [errorLines_flatten]
  have e1 : (ascii "HTTP/1.1 ").length = 9 := by decide
  have e2 : (ascii " ").length = 1 := by decide
  have e3 : (ascii "Server: Zaver").length = 13 := by decide
  have e4 : (ascii "Content-type: text/html").length = 23 := by decide
  have e5 : (ascii "Content-length: ").length = 16 := by decide
  have e6 : CRLF.length = 2 := rfl
  unfold errorFields block ZV_OUT_HEADER_SIZE
  simp only [List.flatMap_append, List.flatMap_cons, List.flatMap_nil, List.length_append,
    List.length_nil]
  omega

/-- The header of a static response is written in full. -/
theorem staticHeader_eq {strftime : Int → Bytes} {out : HttpOut}
    (ht : (strftime out.mtime).length < SHORTLINE) (hs : out.status < 2 ^ 31) (filename : Bytes)
    (filesize : UInt64) (ms : Nat) :
    appendAll ZV_OUT_HEADER_SIZE (staticLines strftime filename filesize out ms) =
      block (staticFields strftime filename filesize out ms) := by
  have h1 : (numeral 10 out.status).length ≤ 10 :=
    length_numeral_le (by decide) (by decide) (by omega)
  have h2 := length_shortmsg_le out.status
  have h3 := length_connectionFields_le out.keepAlive ms
  have h4 := length_fileType_le (dotPos filename)
  have h5 : (numeral 10 filesize.toNat).length ≤ 20 := by
    have hb := filesize.toNat_lt
    exact length_numeral_le (by decide) (by decide) (by omega)
  unfold SHORTLINE at ht
  rw [← staticLines_flatten]
  refine appendAll_fits ?_
  rw [staticLines_flatten]
  have e1 : (ascii "HTTP/1.1 ").length = 9 := by decide
  have e2 : (ascii " ").length = 1 := by decide
  have e3 : (ascii "Server: Zaver").length = 13 := by decide
  have e4 : (ascii "Content-type: ").length = 14 := by decide
  have e5 : (ascii "Content-length: ").length = 16 := by decide
  have e6 : (ascii "Last-Modified: ").length = 15 := by decide
  have e7 : CRLF.length = 2 := rfl
  unfold staticFields block ZV_OUT_HEADER_SIZE
  cases out.modified with
  | true =>
    simp only [if_true, List.flatMap_append, List.flatMap_cons, List.flatMap_nil,
      List.length_append, List.length_nil]
    omega
  | false =>
    simp only [Bool.false_eq_true, if_false, List.flatMap_append, List.flatMap_cons,
      List.flatMap_nil, List.length_append, List.length_nil]
    omega

/-! ### Plain lines -/

theorem numeral_plain (n : Nat) : PlainLine (numeral 10 n) := by
  have hmem : ∀ c ∈ numeral 10 n, (digitVal c).isSome := fun c hc =>
    digitVal_of_mem_numeral (by decide) (by decide) hc
  refine ⟨numeral_ne_nil 10 n, fun h => ?_, fun h => ?_⟩
  · exact absurd (hmem CR h) (by decide)
  · exact absurd (hmem LF h) (by decide)

theorem connectionFields_plain (keepAlive : Bool) (ms : Nat) :
    ∀ l ∈ connectionFields keepAlive ms, PlainLine l := by
  intro l hl
  unfold connectionFields at hl
  cases keepAlive with
  | true =>
    rw [if_pos rfl] at hl
    rcases List.mem_cons.mp hl with rfl | hl
    · decide
    · obtain rfl := List.mem_singleton.mp hl
      have hp : PlainLine (ascii "Keep-Alive: timeout=") := by decide
      exact hp.append (numeral_plain _).cr (numeral_plain _).lf
  | false =>
    rw [if_neg (fun h => by cases h)] at hl
    obtain rfl := List.mem_singleton.mp hl
    decide

theorem shortmsg_plain (status : Nat) : PlainLine (getShortmsgFromStatusCode status) := by
  unfold getShortmsgFromStatusCode
  split
  · decide
  split
  · decide
  split
  · decide
  · decide

theorem fileType_plain (type : Option Bytes) : PlainLine (getFileType type) := by
  have hall : ∀ p ∈ zaverMime, PlainLine p.2 := by decide
  unfold getFileType
  cases type with
  | none => decide
  | some ext =>
    dsimp only
    cases hf : zaverMime.find? (·.1 = ext) with
    | none => decide
    | some p => exact hall p (List.mem_of_find?_eq_some hf)

theorem statusLine_plain {a b : Bytes} (ha : PlainLine a) (hb : PlainLine b) :
    PlainLine (ascii "HTTP/1.1 " ++ a ++ ascii " " ++ b) := by
  have hp : PlainLine (ascii "HTTP/1.1 ") := by decide
  exact ((hp.append ha.cr ha.lf).append (by decide) (by decide)).append hb.cr hb.lf

theorem errorFields_plain {page : ErrorPage} (h : (page.errnum, page.shortmsg) ∈ errorStatuses)
    (keepAlive : Bool) (ms : Nat) : ∀ l ∈ errorFields page keepAlive ms, PlainLine l := by
  obtain ⟨-, -, h1, h2⟩ := errorStatus_line h
  intro l hl
  unfold errorFields at hl
  simp only [List.mem_append, List.mem_cons, List.not_mem_nil, or_false] at hl
  rcases hl with ((rfl | rfl | rfl) | hl) | rfl
  · exact statusLine_plain h1 h2
  · decide
  · decide
  · exact connectionFields_plain keepAlive ms l hl
  · have hp : PlainLine (ascii "Content-length: ") := by decide
    exact hp.append (numeral_plain _).cr (numeral_plain _).lf

theorem staticFields_plain {strftime : Int → Bytes} {out : HttpOut}
    (hcr : CR ∉ strftime out.mtime) (hlf : LF ∉ strftime out.mtime) (filename : Bytes)
    (filesize : UInt64) (ms : Nat) :
    ∀ l ∈ staticFields strftime filename filesize out ms, PlainLine l := by
  intro l hl
  unfold staticFields at hl
  simp only [List.mem_append, List.mem_singleton] at hl
  rcases hl with ((rfl | hl) | hl) | rfl
  · exact statusLine_plain (numeral_plain _) (shortmsg_plain _)
  · exact connectionFields_plain out.keepAlive ms l hl
  · split at hl
    · simp only [List.mem_cons, List.not_mem_nil, or_false] at hl
      rcases hl with rfl | rfl | rfl
      · have hp : PlainLine (ascii "Content-type: ") := by decide
        exact hp.append (fileType_plain _).cr (fileType_plain _).lf
      · have hp : PlainLine (ascii "Content-length: ") := by decide
        exact hp.append (numeral_plain _).cr (numeral_plain _).lf
      · have hp : PlainLine (ascii "Last-Modified: ") := by decide
        exact hp.append hcr hlf
    · exact absurd hl List.not_mem_nil
  · decide

/-! ### Reading the fields -/

/-- The status line is neither of the two fields. -/
theorem field_statusLine {name a b : Bytes} (hname : CR ∉ name)
    (h : 1 ≤ name.length ∧ 1 ≤ (ascii "HTTP/1.1 ").length ∧
      name.take 1 ≠ (ascii "HTTP/1.1 ").take 1)
    (ha : PlainLine a) (hb : PlainLine b) (rest : Bytes) :
    field name (ascii "HTTP/1.1 " ++ a ++ ascii " " ++ b ++ (CRLF ++ rest)) = field name rest := by
  refine field_skip hname (statusLine_plain ha hb).lf ?_ rest
  rw [List.append_assoc, List.append_assoc]
  exact other_name 1 h _

/-- The connection lines hold the announced persistence. -/
theorem connectionField_here (keepAlive : Bool) (ms : Nat) (ls : List Bytes) :
    connectionField (block (connectionFields keepAlive ms ++ ls)) =
      some (connectionText keepAlive) := by
  unfold connectionField connectionFields connectionText
  cases keepAlive with
  | true =>
    rw [if_pos rfl, if_pos rfl, List.cons_append, block_cons]
    exact field_here (by decide) (by decide) (by decide) _
  | false =>
    rw [if_neg (fun h => by cases h), if_neg (fun h => by cases h), List.cons_append, block_cons]
    exact field_here (by decide) (by decide) (by decide) _

/-- The connection lines announce no length. -/
theorem contentLength_connection (keepAlive : Bool) (ms : Nat) (ls : List Bytes) :
    field (ascii "Content-length: ") (block (connectionFields keepAlive ms ++ ls)) =
      field (ascii "Content-length: ") (block ls) := by
  have hplain := connectionFields_plain keepAlive ms
  unfold connectionFields at hplain ⊢
  cases keepAlive with
  | true =>
    rw [if_pos rfl] at hplain ⊢
    rw [List.cons_append, List.cons_append, List.nil_append, block_cons, block_cons]
    rw [field_skip (by decide) (hplain _ (by simp)).lf (other_name 4 (by decide) _),
      field_skip (by decide) (hplain _ (by simp)).lf (other_name 1 (by decide) _)]
  | false =>
    rw [if_neg (fun h => by cases h), List.singleton_append, block_cons]
    exact field_skip (by decide) (by decide) (by decide) _

theorem errorFields_read {page : ErrorPage} (h : (page.errnum, page.shortmsg) ∈ errorStatuses)
    (keepAlive : Bool) (ms : Nat) :
    contentLength (block (errorFields page keepAlive ms)) = some (errorBody page).length ∧
      connectionField (block (errorFields page keepAlive ms)) =
        some (connectionText keepAlive) := by
  obtain ⟨-, -, h1, h2⟩ := errorStatus_line h
  have hbefore : ∀ name, CR ∉ name → 1 ≤ name.length →
      name.take 1 ≠ (ascii "HTTP/1.1 ").take 1 → ¬ name <+: ascii "Server: Zaver" →
      ¬ name <+: ascii "Content-type: text/html" →
      field name (block (errorFields page keepAlive ms)) =
        field name (block (connectionFields keepAlive ms ++
          [ascii "Content-length: " ++ numeral 10 (errorBody page).length])) := by
    intro name hcr hlen hne hs ht
    unfold errorFields
    rw [List.append_assoc, List.cons_append, List.cons_append, List.cons_append, block_cons,
      field_statusLine hcr ⟨hlen, by decide, hne⟩ h1 h2, block_cons,
      field_skip hcr (by decide) hs, List.nil_append, block_cons, field_skip hcr (by decide) ht]
  refine ⟨?_, ?_⟩
  · unfold contentLength
    rw [hbefore _ (by decide) (by decide) (by decide) (by decide) (by decide),
      contentLength_connection, block_cons,
      field_here (by decide) (numeral_plain _).lf (numeral_plain _).cr, Option.bind_some,
      parseNumeral_numeral (by decide) (by decide)]
  · unfold connectionField
    rw [hbefore _ (by decide) (by decide) (by decide) (by decide) (by decide)]
    exact connectionField_here keepAlive ms _

theorem staticFields_read (strftime : Int → Bytes) (filename : Bytes) (filesize : UInt64)
    (out : HttpOut) (ms : Nat) :
    contentLength (block (staticFields strftime filename filesize out ms)) =
        (if out.modified then some filesize.toNat else none) ∧
      connectionField (block (staticFields strftime filename filesize out ms)) =
        some (connectionText out.keepAlive) := by
  unfold staticFields
  rw [List.append_assoc, List.append_assoc, List.singleton_append, block_cons]
  refine ⟨?_, ?_⟩
  · unfold contentLength
    rw [field_statusLine (by decide) (by decide) (numeral_plain _) (shortmsg_plain _),
      contentLength_connection]
    cases out.modified with
    | true =>
      have hty : PlainLine (ascii "Content-type: " ++ getFileType (dotPos filename)) := by
        have hp : PlainLine (ascii "Content-type: ") := by decide
        exact hp.append (fileType_plain _).cr (fileType_plain _).lf
      rw [if_pos rfl, if_pos rfl, List.cons_append, List.cons_append, block_cons,
        field_skip (by decide) hty.lf (other_name 9 (by decide) _), block_cons,
        field_here (by decide) (numeral_plain _).lf (numeral_plain _).cr, Option.bind_some,
        parseNumeral_numeral (by decide) (by decide)]
    | false =>
      rw [if_neg (fun h => by cases h), if_neg (fun h => by cases h)]
      decide
  · unfold connectionField
    rw [field_statusLine (by decide) (by decide) (numeral_plain _) (shortmsg_plain _)]
    exact connectionField_here out.keepAlive ms _

end ResponseHeaderLemmas

open ResponseHeaderLemmas

/-! ## Prepared responses -/

/-- A text written at the head of the header buffer reads back. -/
theorem headerText_write (m : Mem UInt8) (text : Bytes) :
    (m.write 0 (text ++ [0])).slice 0 text.length = text := by
  rw [Mem.slice_write_zero m (text ++ [0]) (by simp), List.take_left]

theorem headerText_prepareError {page : ErrorPage}
    (h : (page.errnum, page.shortmsg) ∈ errorStatuses) (keepAlive : Bool) (ms : Nat) (o : Output) :
    headerText (prepareError true page keepAlive ms o).1 = block (errorFields page keepAlive ms) := by
  rw [← errorHeader_eq h]
  exact headerText_write _ _

theorem headerText_prepareStatic {strftime : Int → Bytes} {openAns : Option Fd} {filename : Bytes}
    {filesize : UInt64} {out : HttpOut} {ms : Nat} {o : Output}
    (ht : (strftime out.mtime).length < SHORTLINE) (hs : out.status < 2 ^ 31) :
    headerText (prepareStatic strftime openAns filename filesize out ms o).1 =
      block (staticFields strftime filename filesize out ms) := by
  rw [← staticHeader_eq ht hs]
  unfold prepareStatic
  dsimp only
  split
  · exact headerText_write _ _
  · cases openAns with
    | none => exact headerText_write _ _
    | some fd => exact headerText_write _ _

namespace Prepared

theorem fresh {o : Output} (h : Prepared o) :
    o.outHeaderSent = 0 ∧ o.outBodySent = 0 ∧ o.outFileOffset = 0 ∧
      (∀ b, o.outBody = some b → b.length = o.outBodyLen) := by
  cases h with
  | error page keepAlive ms o hpage =>
    exact ⟨rfl, rfl, rfl, fun b hb => by rw [← Option.some.inj hb]; rfl⟩
  | static strftime openAns filename filesize out ms o ht hs hok =>
    unfold prepareStatic at hok ⊢
    dsimp only at hok ⊢
    split
    · exact ⟨rfl, rfl, rfl, fun b hb => by cases hb⟩
    · next hm =>
      cases openAns with
      | none =>
        rw [if_neg hm] at hok
        cases hok
      | some fd => exact ⟨rfl, rfl, rfl, fun b hb => by cases hb⟩

/-- The header announces the payload, and the flag that decides the persistence. -/
theorem read {o : Output} (h : Prepared o) :
    announced (headerText o) = payloadSize o ∧
      connectionField (headerText o) = some (connectionText o.keepAlive) := by
  cases h with
  | error page keepAlive ms o hpage =>
    obtain ⟨h1, h2⟩ := errorFields_read hpage keepAlive ms
    rw [headerText_prepareError hpage]
    refine ⟨?_, h2⟩
    have hrest : bodyRest (prepareError true page keepAlive ms o).1 = errorBody page := by
      show ((errorBody page).take (errorBody page).length).drop 0 = errorBody page
      rw [List.take_length, List.drop_zero]
    have hfd : (prepareError true page keepAlive ms o).1.outFileFd = none := rfl
    rw [announced, h1, payloadSize, hrest, hfd]
    rfl
  | static strftime openAns filename filesize out ms o ht hs hok =>
    obtain ⟨h1, h2⟩ := staticFields_read strftime filename filesize out ms
    rw [headerText_prepareStatic ht hs, announced, h1, h2]
    cases hm : out.modified with
    | false =>
      simp only [prepareStatic, hm]
      exact ⟨rfl, rfl⟩
    | true =>
      cases openAns with
      | none =>
        simp only [prepareStatic, hm] at hok
        cases hok
      | some fd =>
        simp only [prepareStatic, hm]
        refine ⟨?_, rfl⟩
        show filesize.toNat = 0 + filesize.toNat
        rw [Nat.zero_add]

end Prepared

end Zaver
