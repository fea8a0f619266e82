import Zaver.WholeRequest

/-!
# The request round trip

`Message` is a request as a client means it and `render` the bytes it sends. The parser
gives the message back (`parse_render`): a message is a request text, which one call accepts
as a whole (`parse_record`), and the pieces in which the bytes arrive do not matter (`feed_eq`).
-/

namespace Zaver

open CString Scan

/-! ## Messages -/

/-- A header of a message; `blanks` spaces stand in front of the value. -/
structure MessageHeader where
  key : Bytes
  blanks : Nat
  value : Bytes

/-- A request as a client means it. The version is given by its digits. -/
structure Message where
  token : Bytes
  uri : Bytes
  major : Bytes
  minor : Bytes
  headers : List MessageHeader

/-- A header that can be sent. -/
structure MessageHeader.Ok (h : MessageHeader) : Prop where
  key_ne : h.key ≠ []
  key : ∀ c ∈ h.key, c ≠ ' '.toUInt8 ∧ c ≠ ':'.toUInt8 ∧ c ≠ CR ∧ c ≠ LF
  value_ne : h.value ≠ []
  value_head : h.value.head? ≠ some ' '.toUInt8
  value : ∀ c ∈ h.value, c ≠ CR ∧ c ≠ LF

/-- A message that can be sent. -/
structure Message.Ok (m : Message) : Prop where
  token_ne : m.token ≠ []
  token : ∀ c ∈ m.token, ('A'.toUInt8 ≤ c ∧ c ≤ 'Z'.toUInt8) ∨ c = '_'.toUInt8
  uri_head : m.uri.head? = some '/'.toUInt8
  uri : ' '.toUInt8 ∉ m.uri
  major_ne : m.major ≠ []
  major : ∀ c ∈ m.major, isDigit c = true
  major_head : m.major.head? ≠ some '0'.toUInt8
  major_fits : decimal m.major < 2 ^ 31
  minor_ne : m.minor ≠ []
  minor : ∀ c ∈ m.minor, isDigit c = true
  minor_fits : decimal m.minor < 2 ^ 31
  headers : ∀ h ∈ m.headers, h.Ok

/-- The bytes of a header line. -/
def MessageHeader.render (h : MessageHeader) : Bytes :=
  h.key ++ (':'.toUInt8 :: (List.replicate h.blanks ' '.toUInt8 ++ (h.value ++ CRLF)))

/-- The bytes of the request line. -/
def Message.requestLine (m : Message) : Bytes :=
  m.token ++ (' '.toUInt8 :: (m.uri ++ (' '.toUInt8 :: (ascii "HTTP/" ++
    (m.major ++ ('.'.toUInt8 :: (m.minor ++ CRLF)))))))

/-- The bytes of a message. -/
def Message.render (m : Message) : Bytes :=
  m.requestLine ++ (m.headers.flatMap MessageHeader.render ++ CRLF)

/-- The spans of headers that are rendered from offset `off` on. -/
def headerSpans (off : Nat) : List MessageHeader → List Header
  | [] => []
  | h :: hs =>
    let keyEnd := off + h.key.length
    let valueStart := keyEnd + 1 + h.blanks
    { keyStart := some off, keyEnd := some keyEnd
      valueStart := some valueStart, valueEnd := some (valueStart + h.value.length) } ::
      headerSpans (off + h.render.length) hs

namespace RoundTripLemmas

open ParseResumeLemmas RequestLineLemmas HeaderLinesLemmas

/-! ### The request line -/

/-- The request line of a message as a line of the grammar. -/
def Message.line (m : Message) : RequestLine :=
  ⟨[], m.token, [], m.uri, [], m.major, m.minor, [], true⟩

theorem line_ok {m : Message} (h : m.Ok) : (Message.line m).Ok where
  lead := fun _ hx => by cases hx
  token_ne := h.token_ne
  token := h.token
  gap := fun _ hx => by cases hx
  uri_head := h.uri_head
  uri := h.uri
  gap' := fun _ hx => by cases hx
  major_ne := h.major_ne
  major := h.major
  major_head := h.major_head
  minor_ne := h.minor_ne
  minor := h.minor
  blanks := fun _ hx => by cases hx

/-! ### The headers -/

/-- A header of a message as a line. -/
def MessageHeader.line (h : MessageHeader) : HeaderLine :=
  ⟨h.key, [], List.replicate h.blanks ' '.toUInt8, h.value⟩

theorem headerLine_render (h : MessageHeader) : (MessageHeader.line h).render = h.render := by
  simp [MessageHeader.line, HeaderLine.render, HeaderLine.text, HeaderLine.name,
    MessageHeader.render]

theorem headerLine_ok {h : MessageHeader} (hok : h.Ok) : (MessageHeader.line h).Ok where
  key_ne := hok.key_ne
  key_head := fun hx => (hok.key CR (List.mem_of_head? hx)).2.2.1 rfl
  key := fun c hc => ⟨(hok.key c (List.mem_of_mem_tail hc)).1, (hok.key c (List.mem_of_mem_tail hc)).2.1⟩
  before := fun _ hx => by cases hx
  after := fun _ hx => List.eq_of_mem_replicate hx
  value_ne := hok.value_ne
  value_head := hok.value_head
  value := fun c hc => hok.value c (List.mem_of_mem_tail hc)

/-- A message as a text. -/
def Message.text (m : Message) : RequestText := ⟨Message.line m, m.headers.map MessageHeader.line⟩

theorem renderLines_headers (hs : List MessageHeader) :
    renderLines (hs.map MessageHeader.line) = hs.flatMap MessageHeader.render := by
  rw [renderLines, List.flatMap_map]
  exact List.flatMap_congr fun h _ => headerLine_render h

theorem text_render (m : Message) : (Message.text m).render = m.render := by
  show (Message.line m).render ++ (renderLines (m.headers.map MessageHeader.line) ++ CRLF) = _
  rw [renderLines_headers]
  rfl

theorem lineSpans_headers (off : Nat) (hs : List MessageHeader) :
    lineSpans off (hs.map MessageHeader.line) = headerSpans off hs := by
  induction hs generalizing off with
  | nil => rfl
  | cons h hs ih =>
    have hname : (MessageHeader.line h).name.length = h.key.length + 1 + h.blanks := by
      simp [MessageHeader.line, HeaderLine.name]
      omega
    have htext : (MessageHeader.line h).text.length =
        h.key.length + 1 + h.blanks + h.value.length := by
      rw [HeaderLine.text, List.length_append, hname]
      rfl
    rw [List.map_cons, lineSpans, headerSpans, ih, headerLine_render, HeaderLine.span, hname, htext]
    simp only [Nat.add_assoc]
    rfl

theorem text_ok {m : Message} (h : m.Ok) : (Message.text m).Ok := by
  refine ⟨line_ok h, fun l hl => ?_, fun l hl hx => ?_⟩
  · obtain ⟨hd, hmem, rfl⟩ := List.mem_map.mp hl
    exact headerLine_ok (h.headers hd hmem)
  · obtain ⟨hd, hmem, rfl⟩ := List.mem_map.mp (List.mem_of_head? hl)
    exact ((h.headers hd hmem).key LF (List.mem_of_head? hx)).2.2.2 rfl

end RoundTripLemmas

open ParseResumeLemmas RequestLineLemmas WholeRequestLemmas RoundTripLemmas

/-- A rendered message of at most `MAX_BUF - 1` bytes comes back from the parser in whatever
pieces it arrives: both parsers return `ZV_OK` at the end of the rendering, and the fields
show the message, its headers in reverse order. -/
theorem parse_render {m : Message} (hm : m.Ok) (hsize : m.render.length ≤ 8123) (old : Request)
    (fd : Fd) (cf : Conf) (ps : List Bytes) (hps : ps.flatten = m.render) :
    ∃ i, feed (zvInitRequestT old fd cf).inp ps = (i, .ok) ∧
      i.parsePos = m.render.length ∧
      i.uriStart = some (m.token.length + 1) ∧
      i.uriEnd = some (m.token.length + 1 + m.uri.length) ∧
      i.span i.uriStart i.uriEnd = m.uri ∧
      i.httpMajor = decimal m.major ∧ i.httpMinor = decimal m.minor ∧
      i.method = methodCode m.token ∧
      i.list = (headerSpans m.requestLine.length m.headers).reverse ∧
      i.list.map i.headerBytes = (m.headers.map fun h => (h.key, h.value)).reverse := by
  generalize hi0 : (zvInitRequestT old fd cf).inp = i0
  have hstart : AtStart i0 := by
    rw [← hi0]
    exact ⟨rfl, rfl, rfl, rfl, rfl⟩
  have hlast0 : i0.last = 0 := by
    rw [← hi0]
    rfl
  have hfull : i0.last + m.render.length ≤ MAX_BUF := by
    rw [hlast0]
    unfold MAX_BUF
    omega
  have hlast : (i0.load m.render).last = m.render.length := by
    show i0.last + _ = _
    rw [hlast0, Nat.zero_add]
  have hbuf : (i0.load m.render).buf.slice 0 m.render.length = m.render := by
    have hself := Mem.slice_write_self i0.buf i0.last m.render
    rw [hlast0, Nat.zero_add] at hself
    show (i0.buf.write i0.last m.render).slice 0 m.render.length = m.render
    rw [hlast0]
    exact hself
  have hwin : (i0.load m.render).window = (Message.text m).render ++ [] := by
    rw [window_eq hfull, text_render, List.append_nil, hlast]
    show (i0.load m.render).buf.slice i0.parsePos _ = _
    rw [hstart.pos]
    exact hbuf
  have hload : AtStart (i0.load m.render) :=
    ⟨hstart.pos, hstart.phase, hstart.line, hstart.header, hstart.list⟩
  obtain ⟨a, b, c, d, hparse⟩ := parse_record hload hfull (text_ok hm) hwin
  obtain ⟨j, hj, hshow⟩ := parse_complete hload hfull (text_ok hm) hwin
  obtain ⟨rfl, -⟩ := Prod.mk.inj (hparse.symm.trans hj)
  have hpos := hshow.pos
  rw [text_render] at hpos
  have hmore : (parsePhases i0).2 = .again := by
    have hempty : i0.window = [] := by
      rw [window_eq (by rw [hlast0]; exact Nat.zero_le _), hstart.pos, hlast0, Mem.slice_self]
    rw [parsePhases_line hstart.phase]
    unfold Parser.call
    rw [hempty]
    rfl
  have hfeed : feed i0 ps = (_, .ok) :=
    feed_eq (by rw [hstart.pos]; exact Nat.zero_le _) (by rw [hps]; exact hfull) hmore
      (by rw [hps]; exact hparse) (hpos.trans (hlast.symm.trans hshow.last.symm))
  have huri : (Message.line m).uriStart = m.token.length + 1 := by
    unfold RequestLine.uriStart Message.line
    simp
  have hunknown : (i0.load m.render).method = .unknown := by
    show i0.method = .unknown
    rw [← hi0]
    rfl
  refine ⟨_, hfeed, hpos, ?_, ?_, congrArg Served.uri hshow.served, ?_, ?_, ?_, ?_, ?_⟩
  · show some (Message.line m).uriStart = _
    rw [huri]
  · show some ((Message.line m).uriStart + m.uri.length) = _
    rw [huri]
  · exact (congrArg Served.httpMajor hshow.served).trans
      ((accumulate_exact_iff hm.major).mpr hm.major_fits)
  · exact (congrArg Served.httpMinor hshow.served).trans
      ((accumulate_exact_iff hm.minor).mpr hm.minor_fits)
  · rw [hshow.method, hunknown]
    exact methodCode_stored m.token
  · show (lineSpans m.requestLine.length (m.headers.map MessageHeader.line)).reverse = _
    rw [lineSpans_headers]
  · have hheaders := congrArg Served.headers hshow.served
    refine hheaders.trans ?_
    show ((m.headers.map MessageHeader.line).map fun l => (l.key, l.value)).reverse = _
    rw [List.map_map]
    rfl

/-- `GET / HTTP/1.1` with one header, in two pieces that cut the method and the value. -/
def helloMessage : Message where
  token := ascii "GET"
  uri := ascii "/"
  major := ascii "1"
  minor := ascii "1"
  headers := [⟨ascii "Host", 1, ascii "localhost"⟩]

theorem helloMessage_ok : helloMessage.Ok where
  token_ne := by decide +kernel
  token := by decide +kernel
  uri_head := by decide +kernel
  uri := by decide +kernel
  major_ne := by decide +kernel
  major := by decide +kernel
  major_head := by decide +kernel
  major_fits := by decide +kernel
  minor_ne := by decide +kernel
  minor := by decide +kernel
  minor_fits := by decide +kernel
  headers h hh := by
    obtain rfl := List.mem_singleton.mp hh
    exact ⟨by decide +kernel, by decide +kernel, by decide +kernel, by decide +kernel, by decide +kernel⟩

theorem parse_render_hello :
    ∃ i, feed (zvInitRequestT Request.zero 7 ⟨none, 0, 0⟩).inp
        [ascii "GE", ascii "T / HTTP/1.1\r\nHost: local", ascii "host\r\n\r", [LF]] = (i, .ok) ∧
      i.method = .get ∧ i.list.map i.headerBytes = [(ascii "Host", ascii "localhost")] := by
  obtain ⟨i, hfeed, -, -, -, -, -, -, hmethod, -, hheaders⟩ :=
    parse_render helloMessage_ok (by decide +kernel) Request.zero 7 ⟨none, 0, 0⟩
      [ascii "GE", ascii "T / HTTP/1.1\r\nHost: local", ascii "host\r\n\r", [LF]]
      (by decide +kernel)
  exact ⟨i, hfeed, hmethod, hheaders⟩

end Zaver
