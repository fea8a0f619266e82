import Zaver.HeaderLines

/-!
# Whole requests

`RequestText` is a request as it stands in a stream: a request line and the header lines up
to the empty line. Both parsers together accept exactly these texts (`parse_sound`,
`parse_complete`), whatever earlier requests have left in the block, and the fields then show
the text. One field may not: for a token of three or four letters that is not one of the
known ones, `r->method` keeps its value (`storedMethod`).
-/

namespace Zaver

open CString Scan HeaderLinesLemmas

/-! ## Texts -/

/-- A request: its line and its header lines. -/
structure RequestText where
  line : RequestLine
  headers : List HeaderLine

namespace RequestText

/-- A request that the parsers accept. -/
structure Ok (q : RequestText) : Prop where
  line : q.line.Ok
  headers : BlockOk q.headers

/-- The bytes of a request. -/
def render (q : RequestText) : Bytes := q.line.render ++ (renderLines q.headers ++ CRLF)

/-- What a request says. The headers come last one first. -/
def served (q : RequestText) : Served where
  token := q.line.token
  uri := q.line.uri
  httpMajor := accumulate q.line.major
  httpMinor := accumulate q.line.minor
  headers := (q.headers.map fun l => (l.key, l.value)).reverse

end RequestText

/-- The method code of a token. -/
def methodCode (token : Bytes) : Method :=
  if token = ascii "GET" then .get
  else if token = ascii "POST" then .post
  else if token = ascii "HEAD" then .head
  else .unknown

/-- The method that the parser stores for a token, none if it leaves `r->method` alone. -/
def storedMethod (token : Bytes) : Option Method :=
  if token.length = 3 then if token = ascii "GET" then some .get else none
  else if token.length = 4 then
    if token = ascii "POST" then some .post
    else if token = ascii "HEAD" then some .head
    else none
  else some .unknown

/-- A block at the beginning of a request, of which no byte was parsed. -/
structure AtStart (i : Input) : Prop where
  pos : i.parsePos = 0
  phase : i.parsePhase = .line
  line : i.requestLineState = .swStart
  header : i.headerState = .swStart
  list : i.list = []

/-- The fields of `j` after the request `q` was accepted from the block `i`. -/
structure Shows (q : RequestText) (i j : Input) : Prop where
  buf : j.buf = i.buf
  last : j.last = i.last
  pos : j.parsePos = q.render.length
  served : j.served = q.served
  uriStart : j.uriStart ≠ none
  uriEnd : j.uriEnd ≠ none
  method : j.method = (storedMethod q.line.token).getD i.method

namespace WholeRequestLemmas

open ParseResumeLemmas RequestLineLemmas

theorem length_request (q : RequestText) :
    q.line.render.length + (renderLines q.headers).length + 2 = q.render.length := by
  unfold RequestText.render
  rw [List.length_append, List.length_append, Nat.add_assoc]
  rfl

/-! ### The method -/

theorem methodCode_stored (token : Bytes) :
    (storedMethod token).getD .unknown = methodCode token := by
  have hget : token = ascii "GET" → token.length = 3 := fun hx => by rw [hx]; decide
  have hpost : token = ascii "POST" → token.length = 4 := fun hx => by rw [hx]; decide
  have hhead : token = ascii "HEAD" → token.length = 4 := fun hx => by rw [hx]; decide
  unfold storedMethod methodCode
  by_cases h3 : token.length = 3
  · have hne : ∀ {n}, token.length = n → n = 3 := fun hx => hx.symm.trans h3
    rw [if_pos h3, if_neg (show ¬ token = ascii "POST" from fun hx => by cases hne (hpost hx)),
      if_neg (show ¬ token = ascii "HEAD" from fun hx => by cases hne (hhead hx))]
    split <;> rfl
  · rw [if_neg h3, if_neg fun hx => h3 (hget hx)]
    by_cases h4 : token.length = 4
    · rw [if_pos h4]
      split
      · rfl
      · split <;> rfl
    · rw [if_neg h4, if_neg fun hx => h4 (hpost hx), if_neg fun hx => h4 (hhead hx)]
      rfl

/-- The method stored for a token that stands in the buffer. -/
theorem methodOf_stored {m : Mem UInt8} {off n : Nat} {s token rest : Bytes}
    (h : m.slice off n = s ++ (token ++ (' '.toUInt8 :: rest))) (old : Method) :
    methodOf m (off + s.length) (off + s.length + token.length) old =
      (storedMethod token).getD old := by
  have hget : token.length = 3 →
      m.slice (off + s.length) (off + s.length + 4) = token ++ [' '.toUInt8] := by
    intro h3
    have hpart := Mem.slice_part m off n (s := s) (t := token ++ [' '.toUInt8])
      (u := rest) (by rw [h]; simp)
    rw [List.length_append, h3] at hpart
    exact hpart
  have hfour : token.length = 4 → m.slice (off + s.length) (off + s.length + 4) = token := by
    intro h4
    have hpart := Mem.slice_part m off n (s := s) (t := token)
      (u := ' '.toUInt8 :: rest) (by rw [h]; simp)
    rw [h4] at hpart
    exact hpart
  have hspace : ascii "GET " = ascii "GET" ++ [' '.toUInt8] := by decide
  unfold methodOf storedMethod
  rw [Nat.add_sub_cancel_left]
  split
  · next h3 =>
    rw [hget h3, hspace]
    simp only [List.append_cancel_right_eq]
    split <;> rfl
  · split
    · next h4 =>
      rw [hfour h4]
      split
      · rfl
      · split <;> rfl
    · rfl

/-! ### The two parsers in turn -/

/-- The block between the two parsers. -/
def afterRequestLine (l : RequestLine) (i : Input) : Input :=
  { i with
    requestStart := some l.tokenStart, methodEnd := some (l.tokenStart + l.token.length)
    method := methodOf i.buf l.tokenStart (l.tokenStart + l.token.length) i.method
    uriStart := some l.uriStart, uriEnd := some (l.uriStart + l.uri.length)
    httpMajor := accumulate l.major, httpMinor := accumulate l.minor
    requestEnd :=
      (if l.cr then some (l.render.length - 2) else i.requestEnd).or (some (l.render.length - 1))
    parsePos := l.render.length, requestLineState := .swStart, parsePhase := .headers }

theorem call_line {i : Input} (hi : AtStart i) {l : RequestLine} (hl : l.Ok) {u : Bytes}
    (hw : i.window = l.render ++ u) :
    lineParser.call i = ({ afterRequestLine l i with parsePhase := .line }, .ok) := by
  have hstate : lineParser.state i = .swStart := hi.line
  unfold Parser.call
  rw [hw, hstate, hi.pos]
  show lineParser.finish (scan lineByte i .swStart 0 _) = _
  rw [scan_line hl]
  simp only [Nat.zero_add]
  show (_, ParseRc.ok) = _
  rw [afterRequestLine, ← hi.phase]
  rfl

theorem window_afterLine {i : Input} (hi : AtStart i) (hlast : i.last ≤ MAX_BUF) {l : RequestLine}
    {u : Bytes} (hw : i.window = l.render ++ u) : (afterRequestLine l i).window = u := by
  rw [window_eq (show (afterRequestLine l i).last ≤ MAX_BUF from hlast)]
  rw [window_eq hlast, hi.pos] at hw
  have hdrop := Mem.drop_slice i.buf 0 i.last l.render.length
  rw [hw, List.drop_left, Nat.zero_add] at hdrop
  exact hdrop.symm

theorem call_block {i : Input} (hi : AtStart i) (hlast : i.last ≤ MAX_BUF) {q : RequestText}
    (hq : q.Ok) {u : Bytes} (hw : i.window = q.render ++ u) :
    ∃ a b c d, headerParser.call (afterRequestLine q.line i) =
      ({ afterRequestLine q.line i with
          list := (lineSpans q.line.render.length q.headers).reverse, curHeaderKeyStart := a
          curHeaderKeyEnd := b, curHeaderValueStart := c, curHeaderValueEnd := d
          parsePos := q.render.length }, .ok) := by
  have hw' : i.window = q.line.render ++ (renderLines q.headers ++ (CRLF ++ u)) := by
    rw [hw, RequestText.render, List.append_assoc, List.append_assoc]
  obtain ⟨a, b, c, d, hscan⟩ := scan_block hq.headers (afterRequestLine q.line i)
    q.line.render.length u
  refine ⟨a, b, c, d, ?_⟩
  have hstate : headerParser.state (afterRequestLine q.line i) = .swStart := hi.header
  have hlist : (afterRequestLine q.line i).list = [] := hi.list
  have hheader : (afterRequestLine q.line i).headerState = .swStart := hi.header
  have haccept : ∀ k : Input, k.headerState = .swStart →
      headerParser.accept q.render.length k = { k with parsePos := q.render.length } :=
    fun k hk => by
      show { k with parsePos := q.render.length, headerState := .swStart } = _
      rw [← hk]
  unfold Parser.call
  rw [window_afterLine hi hlast hw', hstate]
  show headerParser.finish (scan headerByte _ .swStart q.line.render.length _) = _
  rw [hscan, length_request, hlist, List.append_nil]
  exact Prod.ext (haccept _ hheader) rfl

/-- The block after both parsers. Which header was found last is not said. -/
def afterRequest (q : RequestText) (i : Input) (a b c d : Option Nat) : Input :=
  { afterRequestLine q.line i with
    list := (lineSpans q.line.render.length q.headers).reverse, curHeaderKeyStart := a
    curHeaderKeyEnd := b, curHeaderValueStart := c, curHeaderValueEnd := d
    parsePos := q.render.length, parsePhase := .ready }

/-- A request at the head of the window is accepted. -/
theorem parse_record {i : Input} (hi : AtStart i) (hlast : i.last ≤ MAX_BUF) {q : RequestText}
    (hq : q.Ok) {u : Bytes} (hw : i.window = q.render ++ u) :
    ∃ a b c d, parsePhases i = (afterRequest q i a b c d, .ok) := by
  have hline := @call_line i hi q.line hq.line (renderLines q.headers ++ CRLF ++ u)
    (by rw [hw, RequestText.render, List.append_assoc])
  obtain ⟨a, b, c, d, hbody⟩ := call_block hi hlast hq hw
  refine ⟨a, b, c, d, ?_⟩
  rw [parsePhases_line hi.phase, hline, if_pos rfl]
  show headerPhase (afterRequestLine q.line i) = _
  rw [headerPhase_cases rfl, hbody, if_pos rfl]
  rfl

/-- The token and the URI read back from the buffer. -/
theorem spans_line {m : Mem UInt8} {n : Nat} {l : RequestLine} {u : Bytes}
    (h : m.slice 0 n = l.render ++ u) :
    m.slice l.tokenStart (l.tokenStart + l.token.length) = l.token ∧
      m.slice l.uriStart (l.uriStart + l.uri.length) = l.uri := by
  have htoken := Mem.slice_part m 0 n (s := l.lead) (t := l.token)
    (u := ' '.toUInt8 :: (l.gap ++ (l.uri ++ (' '.toUInt8 :: (l.gap' ++ l.version)))) ++ u)
    (by rw [h, RequestLine.render]; simp only [List.append_assoc, List.cons_append])
  have huri := Mem.slice_part m 0 n (s := l.lead ++ (l.token ++ (' '.toUInt8 :: l.gap))) (t := l.uri)
    (u := ' '.toUInt8 :: (l.gap' ++ l.version) ++ u)
    (by rw [h, RequestLine.render]; simp only [List.append_assoc, List.cons_append])
  have hstart : (l.lead ++ (l.token ++ (' '.toUInt8 :: l.gap))).length = l.uriStart := by
    unfold RequestLine.uriStart
    simp only [List.length_append, List.length_cons]
    omega
  rw [Nat.zero_add] at htoken
  rw [hstart, Nat.zero_add] at huri
  exact ⟨htoken, huri⟩

end WholeRequestLemmas

open WholeRequestLemmas ParseResumeLemmas RequestLineLemmas

/-! ## What the parsers accept -/

/-- A request at the head of the window is accepted, and the fields show it. -/
theorem parse_complete {i : Input} (hi : AtStart i) (hlast : i.last ≤ MAX_BUF) {q : RequestText}
    (hq : q.Ok) {u : Bytes} (hw : i.window = q.render ++ u) :
    ∃ j, parsePhases i = (j, .ok) ∧ Shows q i j := by
  obtain ⟨a, b, c, d, hparse⟩ := parse_record hi hlast hq hw
  have hline : i.buf.slice 0 i.last = q.line.render ++ (renderLines q.headers ++ CRLF ++ u) := by
    rw [window_eq hlast, hi.pos] at hw
    rw [hw, RequestText.render, List.append_assoc]
  refine ⟨_, hparse, rfl, rfl, rfl, ?_, (fun hx => by cases hx), (fun hx => by cases hx), ?_⟩
  · obtain ⟨htoken, huri⟩ := spans_line hline
    have hheaders := @lineSpans_bytes i.buf 0 i.last q.headers q.line.render (CRLF ++ u)
      (by rw [hline]; simp only [List.append_assoc])
    rw [Nat.zero_add] at hheaders
    show Served.mk (i.buf.slice q.line.tokenStart (q.line.tokenStart + q.line.token.length))
      (i.buf.slice q.line.uriStart (q.line.uriStart + q.line.uri.length))
      (accumulate q.line.major) (accumulate q.line.minor)
      ((lineSpans q.line.render.length q.headers).reverse.map fun hd =>
        (i.buf.slice (hd.keyStart.getD 0) (hd.keyEnd.getD 0),
          i.buf.slice (hd.valueStart.getD 0) (hd.valueEnd.getD 0))) = _
    rw [htoken, huri, List.map_reverse, hheaders]
    rfl
  · have hstored := @methodOf_stored i.buf 0 i.last q.line.lead q.line.token
      (q.line.gap ++ (q.line.uri ++ (' '.toUInt8 :: (q.line.gap' ++ q.line.version))) ++
        (renderLines q.headers ++ CRLF ++ u))
      (by rw [hline, RequestLine.render]; simp) i.method
    rw [Nat.zero_add] at hstored
    exact hstored

/-- Whatever is accepted begins with a request, and the fields show it. -/
theorem parse_sound {i j : Input} (hi : AtStart i) (hlast : i.last ≤ MAX_BUF)
    (h : parsePhases i = (j, .ok)) :
    ∃ q u, q.Ok ∧ i.window = q.render ++ u ∧ Shows q i j := by
  have hok : (parsePhases i).2 = .ok := by rw [h]
  rw [parsePhases_line hi.phase] at hok
  obtain ⟨l, hl, t, ht⟩ : ∃ l : RequestLine, l.Ok ∧ ∃ t, i.window = l.render ++ t := by
    have hstate : lineParser.state i = .swStart := hi.line
    split at hok
    · next hcall =>
      unfold Parser.call at hcall
      rw [hstate] at hcall
      cases hscan : scan lineParser.step i .swStart i.parsePos i.window with
      | more k st p =>
        rw [hscan] at hcall
        cases hcall
      | fail k rc =>
        rw [hscan] at hcall
        exact absurd hcall (scan_fail (fun _ _ _ _ _ _ => lineByte_fail) hscan).1
      | done k p =>
        obtain ⟨l, hl, t, ht, -⟩ := scan_line_sound hscan
        exact ⟨l, hl, t, ht⟩
    · next hno => exact absurd hok hno
  rw [call_line hi hl ht, if_pos rfl] at hok
  replace hok : (headerPhase (afterRequestLine l i)).2 = .ok := hok
  obtain ⟨ls, hls, u, hu⟩ : ∃ ls, BlockOk ls ∧ ∃ u, t = renderLines ls ++ (CRLF ++ u) := by
    have hstate : headerParser.state (afterRequestLine l i) = .swStart := hi.header
    rw [headerPhase_cases rfl] at hok
    split at hok
    · next hcall =>
      unfold Parser.call at hcall
      rw [hstate, window_afterLine hi hlast ht] at hcall
      cases hscan : scan headerParser.step (afterRequestLine l i) .swStart
          (afterRequestLine l i).parsePos t with
      | more k st p =>
        rw [hscan] at hcall
        cases hcall
      | fail k rc =>
        rw [hscan] at hcall
        exact absurd hcall (scan_fail (fun _ _ _ _ _ _ => headerByte_fail) hscan).1
      | done k p =>
        obtain ⟨ls, hls, u, hu, -⟩ := scan_body_sound hscan
        exact ⟨ls, hls, u, hu⟩
    · next hno => exact absurd hok hno
  have hq : RequestText.Ok ⟨l, ls⟩ := ⟨hl, hls⟩
  have hw : i.window = RequestText.render ⟨l, ls⟩ ++ u := by
    rw [ht, hu, RequestText.render, List.append_assoc, List.append_assoc]
  obtain ⟨j', hj', hshow⟩ := parse_complete hi hlast hq hw
  obtain ⟨rfl, -⟩ := Prod.mk.inj (hj'.symm.trans h)
  exact ⟨⟨l, ls⟩, u, hq, hw, hshow⟩

/-- A request on a block that was just initialised. -/
theorem parse_fresh (old : Request) (fd : Fd) (cf : Conf) {q : RequestText} (hq : q.Ok) {u : Bytes}
    (hlen : (q.render ++ u).length ≤ MAX_BUF) :
    ∃ j, parsePhases ((zvInitRequestT old fd cf).inp.load (q.render ++ u)) = (j, .ok) ∧
      Shows q ((zvInitRequestT old fd cf).inp.load (q.render ++ u)) j := by
  have hfull : 0 + (q.render ++ u).length ≤ MAX_BUF := by
    rw [Nat.zero_add]
    exact hlen
  exact parse_complete ⟨rfl, rfl, rfl, rfl, rfl⟩ hfull hq (window_load_parsed rfl hfull)

end Zaver
