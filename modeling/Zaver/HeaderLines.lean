import Zaver.Lib.HeaderBlock
import Zaver.RequestLine

/-!
# The header lines

`HeaderLine` is a header line as `zv_http_parse_request_body` takes it: a key, spaces, a
colon, spaces, a value and CR LF. What the key and the value may hold is more than a
header should: the first byte of a key is only compared with the line ends, its other bytes
with the space and the colon, and the first byte of a value with the space. `scan_block`
follows the automaton over a block of such lines, `bodyRest_start` reads the lines off
whatever it accepts.

Results:
1. `strict_lines_iff`: when the stored headers are the lines of the block.
2. `empty_value_rejected`: a header with an empty value is never accepted.
-/

namespace Zaver

open CString Scan HeaderBlock

/-- A header line, with the spaces in front of the colon and behind it. -/
structure HeaderLine where
  key : Bytes
  before : Bytes
  after : Bytes
  value : Bytes

namespace HeaderLine

/-- A line that the parser takes. -/
structure Ok (l : HeaderLine) : Prop where
  key_ne : l.key ≠ []
  key_head : l.key.head? ≠ some CR
  key : ∀ c ∈ l.key.tail, c ≠ ' '.toUInt8 ∧ c ≠ ':'.toUInt8
  before : ∀ c ∈ l.before, c = ' '.toUInt8
  after : ∀ c ∈ l.after, c = ' '.toUInt8
  value_ne : l.value ≠ []
  value_head : l.value.head? ≠ some ' '.toUInt8
  value : ∀ c ∈ l.value.tail, c ≠ CR ∧ c ≠ LF

/-- A line whose key and value are free of line ends. -/
structure Clean (l : HeaderLine) : Prop where
  key : CR ∉ l.key ∧ LF ∉ l.key
  value : CR ∉ l.value ∧ LF ∉ l.value

/-- The line up to the value. -/
def name (l : HeaderLine) : Bytes := l.key ++ (l.before ++ (':'.toUInt8 :: l.after))

/-- The line without its end. -/
def text (l : HeaderLine) : Bytes := l.name ++ l.value

/-- The bytes of a line. -/
def render (l : HeaderLine) : Bytes := l.text ++ CRLF

/-- The line with its value taken away. -/
def emptied (l : HeaderLine) : Bytes := l.name ++ CRLF

/-- The spans of a line at offset `off`. -/
def span (l : HeaderLine) (off : Nat) : Header where
  keyStart := some off
  keyEnd := some (off + l.key.length)
  valueStart := some (off + l.name.length)
  valueEnd := some (off + l.text.length)

end HeaderLine

/-- The bytes of header lines. -/
def renderLines (ls : List HeaderLine) : Bytes := ls.flatMap HeaderLine.render

/-- The spans of lines from offset `off` on. -/
def lineSpans (off : Nat) : List HeaderLine → List Header
  | [] => []
  | l :: ls => l.span off :: lineSpans (off + l.render.length) ls

/-- A block in front of the headers: `zv_http_parse_request_body` is in its initial state, and
nothing is left to parse. -/
structure AtHeaders (i : Input) : Prop where
  pos : i.parsePos = i.last
  state : i.headerState = .swStart
  list : i.list = []

/-- The stored headers, in the order of their lines. -/
def storedHeaders (i : Input) : List (Bytes × Bytes) := (i.list.map i.headerBytes).reverse

/-- The stored headers are the lines of a block: every LF stands behind a CR, no key and no
value holds a line end, and the block is the lines of the headers and the empty line. -/
structure StrictLines (block : Bytes) (headers : List (Bytes × Bytes)) : Prop where
  lf : ∀ t u, block = t ++ LF :: u → t.getLast? = some CR
  free : ∀ h ∈ headers, (CR ∉ h.1 ∧ LF ∉ h.1) ∧ CR ∉ h.2 ∧ LF ∉ h.2
  lines : ∃ ls : List HeaderLine, block = renderLines ls ++ CRLF ∧
    headers = ls.map fun l => (l.key, l.value)

/-- A byte that is no line end. -/
def isTextByte (c : UInt8) : Bool := c != CR && c != LF

/-- A line behind its colon and the spaces there; a colon that is the first byte does not count. -/
def valuePart (l : Bytes) : Bytes :=
  (l.tail.dropWhile (· != ':'.toUInt8)).tail.dropWhile (· == ' '.toUInt8)

/-- A line with a colon behind its first byte, in front of any line end, and with a value that
does not begin with a line end. -/
structure KeyedLine (l : Bytes) : Prop where
  colon : ':'.toUInt8 ∈ (l.takeWhile isTextByte).tail
  value : ∃ c, (valuePart l).head? = some c ∧ c ≠ CR ∧ c ≠ LF

/-- The lines of a block, cut at CR LF, are keyed; an empty one need not be. -/
def KeyedLines (block : Bytes) : Prop := ∀ l ∈ crlfLines block, l ≠ [] → KeyedLine l

namespace HeaderLinesLemmas

open ParseResumeLemmas RequestLineLemmas

/-! ### The automaton over a line -/

/-- A line can start in this state: the first line not with LF. -/
def Starts (state : HeaderState) (l : HeaderLine) : Prop :=
  state = .swCrlf ∨ (state = .swStart ∧ l.key.head? ≠ some LF)

/-- The key, the colon and the spaces. -/
theorem scan_name {l : HeaderLine} (hl : l.Ok) {state : HeaderState} (hst : Starts state l)
    (i : Input) (p : Nat) (rest : Bytes) :
    scan headerByte i state p (l.name ++ rest) =
      scan headerByte
        { i with curHeaderKeyStart := some p, curHeaderKeyEnd := some (p + l.key.length) }
        .swSpacesAfterColon (p + l.name.length) rest := by
  obtain ⟨key, before, after, value⟩ := l
  cases key with
  | nil => exact absurd rfl hl.key_ne
  | cons k key =>
    have hkcr : k ≠ CR := fun hx => hl.key_head (by rw [hx]; rfl)
    have hkey : headerByte i state p k = .next { i with curHeaderKeyStart := some p } .swKey := by
      rcases hst with rfl | ⟨rfl, hlf⟩
      · unfold headerByte
        dsimp only
        rw [if_neg (by simpa using hkcr)]
      · have hklf : k ≠ LF := fun hx => hlf (by rw [hx]; rfl)
        unfold headerByte
        dsimp only
        rw [if_neg (by simpa using hkcr), if_neg (by simpa using hklf)]
    have hkeys : ∀ c ∈ key, ∀ q, headerByte { i with curHeaderKeyStart := some p } .swKey q c =
        .next { i with curHeaderKeyStart := some p } .swKey := by
      intro c hc q
      obtain ⟨hsp, hcol⟩ := hl.key c hc
      unfold headerByte
      dsimp only
      rw [if_neg (by simpa using hsp), if_neg (by simpa using hcol)]
    generalize hke : p + 1 + key.length = ke
    have hlen : p + (k :: key).length = ke := by
      rw [List.length_cons]
      omega
    -- The spaces in front of the colon, if there are any, have a state of their own.
    have hcolon : ∀ s, scan headerByte { i with curHeaderKeyStart := some p } .swKey ke
        (before ++ (':'.toUInt8 :: s)) =
        scan headerByte { i with curHeaderKeyStart := some p, curHeaderKeyEnd := some ke }
          .swSpacesAfterColon (ke + before.length + 1) s := by
      intro s
      cases before with
      | nil => rfl
      | cons b before =>
        obtain rfl := hl.before b List.mem_cons_self
        have hfirst : headerByte { i with curHeaderKeyStart := some p } .swKey ke ' '.toUInt8 =
            .next { i with curHeaderKeyStart := some p, curHeaderKeyEnd := some ke }
              .swSpacesBeforeColon := rfl
        have hloop : ∀ c ∈ before, ∀ q,
            headerByte { i with curHeaderKeyStart := some p, curHeaderKeyEnd := some ke }
              .swSpacesBeforeColon q c =
            .next { i with curHeaderKeyStart := some p, curHeaderKeyEnd := some ke }
              .swSpacesBeforeColon := by
          intro c hc q
          rw [hl.before c (List.mem_cons_of_mem _ hc)]
          rfl
        rw [List.cons_append, scan_next hfirst, scan_loop hloop, List.length_cons,
          show ke + (before.length + 1) = ke + 1 + before.length by omega]
        rfl
    have hblanks : ∀ c ∈ after, ∀ q,
        headerByte { i with curHeaderKeyStart := some p, curHeaderKeyEnd := some ke }
          .swSpacesAfterColon q c =
        .next { i with curHeaderKeyStart := some p, curHeaderKeyEnd := some ke }
          .swSpacesAfterColon := by
      intro c hc q
      rw [hl.after c hc]
      rfl
    unfold HeaderLine.name
    dsimp only
    rw [hlen, List.append_assoc, List.cons_append, scan_next hkey, scan_loop hkeys, hke,
      List.append_assoc, List.cons_append, hcolon, scan_loop hblanks]
    have hq : ke + before.length + 1 + after.length =
        p + (k :: key ++ (before ++ (':'.toUInt8 :: after))).length := by
      simp only [List.length_append, List.length_cons]
      omega
    rw [hq]

/-- A whole line. -/
theorem scan_headerLine {l : HeaderLine} (hl : l.Ok) {state : HeaderState} (hst : Starts state l)
    (i : Input) (p : Nat) (rest : Bytes) :
    scan headerByte i state p (l.render ++ rest) =
      scan headerByte
        { i with
          list := l.span p :: i.list
          curHeaderKeyStart := (l.span p).keyStart, curHeaderKeyEnd := (l.span p).keyEnd
          curHeaderValueStart := (l.span p).valueStart
          curHeaderValueEnd := (l.span p).valueEnd }
        .swCrlf (p + l.render.length) rest := by
  have hname := scan_name hl hst i p (l.value ++ (CRLF ++ rest))
  have hv0 := hl.value_head
  have hvs := hl.value
  unfold HeaderLine.render HeaderLine.text
  rw [List.append_assoc, List.append_assoc, hname]
  have hspan : l.span p = ⟨some p, some (p + l.key.length), some (p + l.name.length),
      some (p + l.name.length + l.value.length)⟩ := by
    unfold HeaderLine.span HeaderLine.text
    rw [List.length_append, Nat.add_assoc]
  rw [hspan, List.length_append, List.length_append, show CRLF.length = 2 from rfl]
  cases hv : l.value with
  | nil => exact absurd hv hl.value_ne
  | cons v value =>
    rw [hv] at hv0 hvs
    generalize hstart : p + l.name.length = vs
    have hval : headerByte
        { i with curHeaderKeyStart := some p, curHeaderKeyEnd := some (p + l.key.length) }
        .swSpacesAfterColon vs v =
        .next
          { i with
            curHeaderKeyStart := some p, curHeaderKeyEnd := some (p + l.key.length)
            curHeaderValueStart := some vs } .swValue := by
      have hne : v ≠ ' '.toUInt8 := fun hx => hv0 (by rw [hx]; rfl)
      unfold headerByte
      dsimp only
      rw [if_neg (by simpa using hne)]
    have hvals : ∀ c ∈ value, ∀ q,
        headerByte
          { i with
            curHeaderKeyStart := some p, curHeaderKeyEnd := some (p + l.key.length)
            curHeaderValueStart := some vs } .swValue q c =
        .next
          { i with
            curHeaderKeyStart := some p, curHeaderKeyEnd := some (p + l.key.length)
            curHeaderValueStart := some vs } .swValue := by
      intro c hc q
      obtain ⟨hcr, hlf⟩ := hvs c hc
      unfold headerByte
      dsimp only
      rw [if_neg (by simpa using hcr), if_neg (by simpa using hlf)]
    rw [List.cons_append, scan_next hval, scan_loop hvals, List.length_cons,
      show vs + (value.length + 1) = vs + 1 + value.length by omega]
    have hend : p + (l.name.length + (value.length + 1) + 2) = vs + 1 + value.length + 2 := by omega
    rw [hend]
    rfl

/-- The header lines of a block are lines that the parser takes, the first one not beginning
with LF. -/
structure BlockOk (ls : List HeaderLine) : Prop where
  lines : ∀ l ∈ ls, l.Ok
  first : ∀ l, ls.head? = some l → l.key.head? ≠ some LF

/-- Header lines, from the state at the beginning of a block or behind a line. -/
theorem scan_lines {ls : List HeaderLine} (hls : ∀ l ∈ ls, l.Ok) {state : HeaderState}
    (hst : ∀ l, ls.head? = some l → Starts state l) (i : Input) (p : Nat) (rest : Bytes) :
    ∃ a b c d, scan headerByte i state p (renderLines ls ++ rest) =
        scan headerByte
          { i with
            list := (lineSpans p ls).reverse ++ i.list, curHeaderKeyStart := a
            curHeaderKeyEnd := b, curHeaderValueStart := c, curHeaderValueEnd := d }
          (if ls = [] then state else .swCrlf) (p + (renderLines ls).length) rest := by
  induction ls generalizing i state p with
  | nil => exact ⟨_, _, _, _, rfl⟩
  | cons l ls ih =>
    have hline := scan_headerLine (hls l List.mem_cons_self) (hst l rfl) i p (renderLines ls ++ rest)
    obtain ⟨a, b, c, d, hrest⟩ := ih (fun x hx => hls x (List.mem_cons_of_mem _ hx))
      (fun _ _ => .inl rfl) _ (p + l.render.length)
    refine ⟨a, b, c, d, ?_⟩
    have hcons : renderLines (l :: ls) = l.render ++ renderLines ls := rfl
    have hlist : (lineSpans p (l :: ls)).reverse ++ i.list =
        (lineSpans (p + l.render.length) ls).reverse ++ (l.span p :: i.list) := by
      rw [lineSpans, List.reverse_cons, List.append_assoc, List.singleton_append]
    rw [hcons, List.append_assoc, hline, hrest, List.length_append, ← Nat.add_assoc, hlist, ite_self,
      if_neg (List.cons_ne_nil _ _)]

/-- A block of header lines and the empty line. -/
theorem scan_block {ls : List HeaderLine} (hls : BlockOk ls) (i : Input) (p : Nat) (rest : Bytes) :
    ∃ a b c d, scan headerByte i .swStart p (renderLines ls ++ (CRLF ++ rest)) =
      .done
        { i with
          list := (lineSpans p ls).reverse ++ i.list, curHeaderKeyStart := a
          curHeaderKeyEnd := b, curHeaderValueStart := c, curHeaderValueEnd := d }
        (p + (renderLines ls).length + 2) := by
  obtain ⟨a, b, c, d, hscan⟩ := scan_lines hls.lines (fun l hl => .inr ⟨rfl, hls.first l hl⟩) i p
    (CRLF ++ rest)
  refine ⟨a, b, c, d, hscan.trans ?_⟩
  split
  · rfl
  · rfl

/-- A line without a value ends the scan: the CR is taken for the first byte of a value, in
which LF is an error. -/
theorem scan_emptied {ls₁ ls₂ : List HeaderLine} {l : HeaderLine} (hls : BlockOk (ls₁ ++ l :: ls₂))
    (i : Input) (p : Nat) :
    ∃ k, scan headerByte i .swStart p (renderLines ls₁ ++ l.emptied ++ renderLines ls₂ ++ CRLF) =
      .fail k .invalidHeader := by
  have hok : ∀ x ∈ ls₁, x.Ok := fun x hx => hls.lines x (List.mem_append_left _ hx)
  have hl : l.Ok := hls.lines l (List.mem_append_right _ List.mem_cons_self)
  have hhead : ∀ x, ls₁.head? = some x → Starts .swStart x := by
    intro x hx
    refine .inr ⟨rfl, hls.first x ?_⟩
    rw [List.head?_append, hx]
    rfl
  have hstart : Starts (if ls₁ = [] then .swStart else .swCrlf) l := by
    split
    · next hnil => exact .inr ⟨rfl, hls.first l (by rw [hnil]; rfl)⟩
    · exact .inl rfl
  have hassoc : renderLines ls₁ ++ l.emptied ++ renderLines ls₂ ++ CRLF =
      renderLines ls₁ ++ (l.name ++ (CRLF ++ (renderLines ls₂ ++ CRLF))) := by
    simp only [HeaderLine.emptied, List.append_assoc]
  obtain ⟨a, b, c, d, hlines⟩ := scan_lines hok hhead i p
    (l.name ++ (CRLF ++ (renderLines ls₂ ++ CRLF)))
  rw [hassoc, hlines, scan_name hl hstart]
  exact ⟨_, rfl⟩

/-! ### What is accepted -/

/-- Behind a line. -/
def crlfRest (s : Bytes) : Prop := ∃ ls : List HeaderLine, (∀ l ∈ ls, l.Ok) ∧ s = renderLines ls ++ CRLF

/-- Behind the first byte of a value. -/
def valueRest : Bytes → Prop :=
  Many (fun c => c ≠ CR ∧ c ≠ LF) (One (· = CR) (One (· = LF) crlfRest))

/-- Behind the colon. -/
def colonRest : Bytes → Prop := Many (· = ' '.toUInt8) (One (· ≠ ' '.toUInt8) valueRest)

/-- Behind the key. -/
def keyRest : Bytes → Prop := Many (· = ' '.toUInt8) (One (· = ':'.toUInt8) colonRest)

/-- Behind the first byte of a key. -/
def lineTail : Bytes → Prop := Many (fun c => c ≠ ' '.toUInt8 ∧ c ≠ ':'.toUInt8) keyRest

/-- The languages of the states of `zv_http_parse_request_body`. -/
def bodyRest : HeaderState → Bytes → Prop
  | .swStart => fun s => s = CRLF ∨ One (fun c => c ≠ CR ∧ c ≠ LF) lineTail s
  | .swKey => lineTail
  | .swSpacesBeforeColon => keyRest
  | .swSpacesAfterColon => colonRest
  | .swValue => valueRest
  | .swCr => One (· = LF) crlfRest
  | .swCrlf => crlfRest
  | .swCrlfcr => (· = [LF])

/-- The first line of what follows a key byte. -/
theorem lineTail_line {c : UInt8} (hc : c ≠ CR) {s : Bytes} (h : lineTail s) :
    ∃ l : HeaderLine, l.Ok ∧ l.key.head? = some c ∧
      ∃ ls : List HeaderLine, (∀ l ∈ ls, l.Ok) ∧ c :: s = l.render ++ (renderLines ls ++ CRLF) := by
  obtain ⟨key, _, rfl, hkey, before, _, rfl, hbefore, _, _, rfl, rfl, h⟩ := h
  obtain ⟨after, _, rfl, hafter, v, _, rfl, hv, h⟩ := h
  obtain ⟨value, _, rfl, hvalue, _, _, rfl, rfl, _, _, rfl, rfl, ls, hls, rfl⟩ := h
  refine ⟨⟨c :: key, before, after, v :: value⟩, ?_, rfl, ls, hls, ?_⟩
  · exact
      { key_ne := List.cons_ne_nil _ _, key_head := fun hx => hc (Option.some.inj hx), key := hkey
        before := hbefore, after := hafter, value_ne := List.cons_ne_nil _ _
        value_head := fun hx => hv (Option.some.inj hx), value := hvalue }
  · simp [HeaderLine.render, HeaderLine.text, HeaderLine.name, CRLF]

theorem crlfRest_cons {c : UInt8} (hc : c ≠ CR) {s : Bytes} (h : lineTail s) : crlfRest (c :: s) := by
  obtain ⟨l, hl, -, ls, hls, heq⟩ := lineTail_line hc h
  refine ⟨l :: ls, fun x hx => ?_, ?_⟩
  · cases List.mem_cons.mp hx with
    | inl hx => exact hx ▸ hl
    | inr hx => exact hls x hx
  · rw [heq, ← List.append_assoc]
    rfl

theorem bodyRest_next {i j : Input} {state state' : HeaderState} {p : Nat} {ch : UInt8} {s : Bytes}
    (h : headerByte i state p ch = .next j state') (hs : bodyRest state' s) :
    bodyRest state (ch :: s) := by
  cases state with
  | swStart =>
    simp only [headerByte] at h
    split_ifs at h with h1 h2 <;> cases h
    · exact .inl (by rw [eq_of_beq h1, show s = [LF] from hs]; rfl)
    · exact .inr (One.intro ⟨by simpa using h1, by simpa using h2⟩ hs)
  | swKey =>
    simp only [headerByte] at h
    split_ifs at h with h1 h2 <;> cases h
    · exact Many.skip (Many.cons (eq_of_beq h1) hs)
    · exact Many.skip (Many.skip (One.intro (eq_of_beq h2) hs))
    · exact Many.cons ⟨by simpa using h1, by simpa using h2⟩ hs
  | swSpacesBeforeColon =>
    simp only [headerByte] at h
    split_ifs at h with h1 h2 <;> cases h
    · exact Many.cons (eq_of_beq h1) hs
    · exact Many.skip (One.intro (eq_of_beq h2) hs)
  | swSpacesAfterColon =>
    simp only [headerByte] at h
    split_ifs at h with h1 <;> cases h
    · exact Many.cons (eq_of_beq h1) hs
    · exact Many.skip (One.intro (by simpa using h1) hs)
  | swValue =>
    simp only [headerByte] at h
    split_ifs at h with h1 h2 <;> cases h
    · exact Many.skip (One.intro (eq_of_beq h1) hs)
    · exact Many.cons ⟨by simpa using h1, by simpa using h2⟩ hs
  | swCr =>
    simp only [headerByte] at h
    split_ifs at h with h1
    cases h
    exact One.intro (eq_of_beq h1) hs
  | swCrlf =>
    simp only [headerByte] at h
    split_ifs at h with h1 <;> cases h
    · exact ⟨[], (fun _ hx => by cases hx), by rw [eq_of_beq h1, show s = [LF] from hs]; rfl⟩
    · exact crlfRest_cons (by simpa using h1) hs
  | swCrlfcr =>
    simp only [headerByte] at h
    split_ifs at h

theorem bodyRest_done {i j : Input} {state : HeaderState} {p : Nat} {ch : UInt8}
    (h : headerByte i state p ch = .done j) : bodyRest state [ch] := by
  cases state with
  | swCrlfcr =>
    simp only [headerByte] at h
    split_ifs at h with h1
    cases h
    show [ch] = [LF]
    rw [eq_of_beq h1]
  | _ =>
    simp only [headerByte] at h
    split_ifs at h

/-- The lines of a block that is accepted. -/
theorem bodyRest_start {s : Bytes} (h : bodyRest .swStart s) :
    ∃ ls, BlockOk ls ∧ s = renderLines ls ++ CRLF := by
  rcases h with rfl | ⟨c, t, rfl, ⟨hcr, hlf⟩, ht⟩
  · exact ⟨[], ⟨(fun _ hx => by cases hx), fun _ hx => by cases hx⟩, rfl⟩
  · obtain ⟨l, hl, hhead, ls, hls, heq⟩ := lineTail_line hcr ht
    refine ⟨l :: ls, ⟨fun x hx => ?_, fun x hx => ?_⟩, ?_⟩
    · cases List.mem_cons.mp hx with
      | inl hx => exact hx ▸ hl
      | inr hx => exact hls x hx
    · obtain rfl : l = x := Option.some.inj hx
      rw [hhead]
      exact fun hx => hlf (Option.some.inj hx)
    · rw [heq, ← List.append_assoc]
      rfl

theorem scan_body_sound {i j : Input} {p q : Nat} {s : Bytes}
    (h : scan headerByte i .swStart p s = .done j q) :
    ∃ ls, BlockOk ls ∧ ∃ u, s = renderLines ls ++ (CRLF ++ u) ∧
      q = p + (renderLines ls).length + 2 := by
  have hsound := @scan_sound _ _ _ _ headerByte bodyRest (fun _ _ _ _ _ _ _ => bodyRest_next)
    (fun _ _ _ _ _ => bodyRest_done) _ _ _ _ _ _ h
  obtain ⟨t, u, rfl, rfl, ht⟩ := hsound
  obtain ⟨ls, hls, rfl⟩ := bodyRest_start ht
  refine ⟨ls, hls, u, List.append_assoc _ _ _, ?_⟩
  rw [List.length_append, show CRLF.length = 2 from rfl, Nat.add_assoc]

/-! ### The headers in the buffer -/

/-- The spans of lines read back. -/
theorem lineSpans_bytes (m : Mem UInt8) (off n : Nat) {ls : List HeaderLine} {s u : Bytes}
    (h : m.slice off n = s ++ renderLines ls ++ u) :
    (lineSpans (off + s.length) ls).map (fun hd =>
        (m.slice (hd.keyStart.getD 0) (hd.keyEnd.getD 0),
          m.slice (hd.valueStart.getD 0) (hd.valueEnd.getD 0))) =
      ls.map fun l => (l.key, l.value) := by
  induction ls generalizing s with
  | nil => rfl
  | cons l ls ih =>
    have hcons : renderLines (l :: ls) = l.render ++ renderLines ls := rfl
    rw [hcons] at h
    have hkey : m.slice (off + s.length) (off + s.length + l.key.length) = l.key :=
      Mem.slice_part m off n (u := l.before ++ (':'.toUInt8 :: l.after) ++ l.value ++ CRLF ++
        renderLines ls ++ u)
        (by rw [h, HeaderLine.render, HeaderLine.text, HeaderLine.name]
            simp only [List.append_assoc])
    have hvalue : m.slice (off + s.length + l.name.length) (off + s.length + l.text.length) =
        l.value := by
      have hpart := Mem.slice_part m off n (t := l.value) (s := s ++ l.name)
        (u := CRLF ++ renderLines ls ++ u)
        (by rw [h, HeaderLine.render, HeaderLine.text]; simp only [List.append_assoc])
      rw [List.length_append] at hpart
      unfold HeaderLine.text
      rw [List.length_append, ← Nat.add_assoc]
      rw [← Nat.add_assoc] at hpart
      exact hpart
    have hrest := ih (s := s ++ l.render) (by rw [h]; simp only [List.append_assoc])
    rw [List.length_append, ← Nat.add_assoc] at hrest
    rw [lineSpans, List.map_cons, List.map_cons, hrest]
    unfold HeaderLine.span
    dsimp only [Option.getD_some]
    rw [hkey, hvalue]

/-- A call on bytes that follow, from the state in front of the headers. -/
theorem call_headers {i : Input} (hi : AtHeaders i) {s : Bytes} (hs : i.last + s.length ≤ MAX_BUF) :
    headerParser.call (i.load s) =
      headerParser.finish (scan headerByte (i.load s) .swStart i.last s) := by
  have hstate : headerParser.state (i.load s) = .swStart := hi.state
  have hpos : (i.load s).parsePos = i.last := hi.pos
  unfold Parser.call
  rw [window_load_parsed hi.pos hs, hstate, hpos]
  rfl

theorem call_again {i : Input} (hi : AtHeaders i) (hlast : i.last ≤ MAX_BUF) :
    (headerParser.call i).2 = .again := by
  unfold Parser.call
  rw [window_eq hlast, hi.pos, Mem.slice_self]
  rfl

/-- What is accepted in pieces is a block of lines, and the stored headers are their keys and
values. -/
theorem feed_body {i : Input} (hi : AtHeaders i) {ps : List Bytes}
    (hfit : i.last + ps.flatten.length ≤ MAX_BUF - 1) {j : Input}
    (h : feedWith zvHttpParseRequestBody i ps = (j, .ok)) :
    ∃ ls, BlockOk ls ∧ (∃ u, ps.flatten = renderLines ls ++ (CRLF ++ u)) ∧
      j.parsePos = i.parsePos + (renderLines ls ++ CRLF).length ∧
      storedHeaders j = ls.map fun l => (l.key, l.value) := by
  have hmax : i.last + ps.flatten.length ≤ MAX_BUF := hfit.trans (Nat.sub_le _ _)
  have hmore := call_again hi (by omega)
  have hfun : zvHttpParseRequestBody = headerParser.call := funext parseBody_eq
  obtain ⟨hrc, hok⟩ := @feedWith_call _ headerParser i ps hi.pos.le hmax hmore
  rw [hfun] at h
  rw [h, call_headers hi hmax] at hrc hok
  obtain ⟨rest, heq, hle⟩ := hok rfl
  cases hscan : scan headerByte (i.load ps.flatten) .swStart i.last ps.flatten with
  | more k st p =>
    rw [hscan] at hrc
    cases hrc
  | fail k rc =>
    rw [hscan] at hrc
    exact absurd hrc (scan_fail (fun _ _ _ _ _ _ => headerByte_fail) hscan).1
  | done k q =>
    obtain ⟨ls, hls, u, hu, hq⟩ := scan_body_sound hscan
    obtain ⟨a, b, c, d, hblock⟩ := scan_block hls (i.load ps.flatten) i.last u
    rw [← hu, hscan] at hblock
    obtain ⟨rfl, -⟩ := Outcome.done.inj hblock
    rw [hscan] at heq
    have hpos : j.parsePos = q := (congrArg Input.parsePos heq).symm
    have hlen : (renderLines ls ++ CRLF).length = (renderLines ls).length + 2 := by
      rw [List.length_append]
      rfl
    have hpos' : j.parsePos = i.parsePos + (renderLines ls ++ CRLF).length := by
      rw [hpos, hq, hi.pos, hlen, Nat.add_assoc]
    refine ⟨ls, hls, ⟨u, hu⟩, hpos', ?_⟩
    have hlist : j.list = (lineSpans i.last ls).reverse := by
      have hx : (lineSpans i.last ls).reverse ++ i.list = j.list := congrArg Input.list heq
      rw [hi.list, List.append_nil] at hx
      exact hx.symm
    have hmem : (j.load rest).buf = i.buf.write i.last ps.flatten := (congrArg Input.buf heq).symm
    have hbuf : j.buf.slice i.last j.parsePos = [] ++ renderLines ls ++ CRLF := by
      have hkeep : (j.buf.write j.last rest).slice i.last j.parsePos = j.buf.slice i.last j.parsePos :=
        Mem.slice_write_before j.buf rest hle
      have hself : (i.buf.write i.last ps.flatten).slice i.last (i.last + ps.flatten.length) =
          ps.flatten := Mem.slice_write_self _ _ _
      have hle' : i.last + (renderLines ls ++ CRLF).length ≤ i.last + ps.flatten.length := by
        rw [hu, List.length_append, List.length_append, List.length_append]
        omega
      have htake := Mem.take_slice (i.buf.write i.last ps.flatten) hle'
      rw [← hkeep, List.nil_append]
      show (j.load rest).buf.slice i.last j.parsePos = _
      rw [hmem, hpos', hi.pos, ← htake, hself, hu, ← List.append_assoc, List.take_left]
    have hbytes := lineSpans_bytes j.buf i.last j.parsePos hbuf
    unfold storedHeaders
    rw [hlist, List.map_reverse, List.reverse_reverse]
    exact hbytes

/-! ### Lines at CR LF -/

theorem renderLines_block (ls : List HeaderLine) :
    renderLines ls ++ CRLF = block (ls.map HeaderLine.text) := by
  rw [block, List.flatMap_map]
  rfl

theorem not_mem_name {l : HeaderLine} (hl : l.Ok) {c : UInt8} (hc : c = CR ∨ c = LF)
    (hkey : c ∉ l.key) : c ∉ l.name := by
  have hspace : c ≠ ' '.toUInt8 := by rcases hc with rfl | rfl <;> decide
  have hcolon : c ≠ ':'.toUInt8 := by rcases hc with rfl | rfl <;> decide
  intro hx
  rcases List.mem_append.mp hx with hx | hx
  · exact hkey hx
  · rcases List.mem_append.mp hx with hx | hx
    · exact hspace (hl.before c hx)
    · cases List.mem_cons.mp hx with
      | inl hx => exact hcolon hx
      | inr hx => exact hspace (hl.after c hx)

theorem not_mem_text {l : HeaderLine} (hl : l.Ok) (hclean : l.Clean) :
    CR ∉ l.text ∧ LF ∉ l.text := by
  refine ⟨fun hx => ?_, fun hx => ?_⟩
  · cases List.mem_append.mp hx with
    | inl hx => exact not_mem_name hl (.inl rfl) hclean.key.1 hx
    | inr hx => exact hclean.value.1 hx
  · cases List.mem_append.mp hx with
    | inl hx => exact not_mem_name hl (.inr rfl) hclean.key.2 hx
    | inr hx => exact hclean.value.2 hx

/-- The value of a line, or what stands in its place. -/
theorem valuePart_name {l : HeaderLine} (hl : l.Ok) {f : Bytes} (hf : f.head? ≠ some ' '.toUInt8) :
    valuePart (l.name ++ f) = f := by
  obtain ⟨key, before, after, value⟩ := l
  cases key with
  | nil => exact absurd rfl hl.key_ne
  | cons k key =>
    have hkey : ∀ c ∈ key, (c != ':'.toUInt8) = true := by
      intro c hc
      simpa using (hl.key c hc).2
    have hbefore : ∀ c ∈ before, (c != ':'.toUInt8) = true := by
      intro c hc
      rw [hl.before c hc]
      rfl
    have hafter : ∀ c ∈ after, (c == ' '.toUInt8) = true := by
      intro c hc
      rw [hl.after c hc]
      rfl
    show (List.dropWhile _ (key ++ (before ++ (':'.toUInt8 :: after)) ++ f)).tail.dropWhile _ = f
    rw [List.append_assoc, List.dropWhile_append_of_pos hkey, List.append_assoc,
      List.dropWhile_append_of_pos hbefore, List.cons_append,
      List.dropWhile_cons_of_neg (by decide), List.tail_cons, List.dropWhile_append_of_pos hafter]
    cases f with
    | nil => rfl
    | cons c f =>
      have hc : c ≠ ' '.toUInt8 := fun hx => hf (by rw [hx]; rfl)
      exact List.dropWhile_cons_of_neg (by simpa using hc)

theorem keyed_of_clean {l : HeaderLine} (hl : l.Ok) (hclean : l.Clean) : KeyedLine l.text := by
  obtain ⟨hcr, hlf⟩ := not_mem_text hl hclean
  have hfree : ∀ c ∈ l.text, isTextByte c = true := by
    intro c hc
    have hne : c ≠ CR ∧ c ≠ LF := ⟨fun hx => hcr (hx ▸ hc), fun hx => hlf (hx ▸ hc)⟩
    simpa [isTextByte] using hne
  refine ⟨?_, ?_⟩
  · rw [List.takeWhile_eq_self_iff.mpr hfree]
    cases hk : l.key with
    | nil => exact absurd hk hl.key_ne
    | cons k key => simp [HeaderLine.text, HeaderLine.name, hk]
  · unfold HeaderLine.text
    rw [valuePart_name hl hl.value_head]
    cases hv : l.value with
    | nil => exact absurd hv hl.value_ne
    | cons v value =>
      have hclean := hclean.value
      rw [hv] at hclean
      exact ⟨v, rfl, fun hx => hclean.1 (hx ▸ List.mem_cons_self),
        fun hx => hclean.2 (hx ▸ List.mem_cons_self)⟩

/-- A key with a line end in it leaves the first piece without a colon. -/
theorem key_free_of_keyed {l : HeaderLine} (hl : l.Ok) {s f : Bytes} {ls : List Bytes}
    (hf : crlfLines (l.key ++ s) = f :: ls) (hkeyed : KeyedLine f) : CR ∉ l.key ∧ LF ∉ l.key := by
  by_contra hno
  have hex : ∃ e ∈ l.key, ¬ isTextByte e = true := by
    by_contra hall
    push Not at hall
    refine hno ⟨fun hx => ?_, fun hx => ?_⟩
    · exact absurd (hall _ hx) (by decide)
    · exact absurd (hall _ hx) (by decide)
  -- The key up to its first line end.
  obtain ⟨e, a, b, heq, ha, he⟩ : ∃ e a b, l.key = a ++ e :: b ∧
      (∀ c ∈ a, isTextByte c = true) ∧ ¬ isTextByte e = true := by
    obtain ⟨e, he, hne⟩ := hex
    cases hd : l.key.dropWhile isTextByte with
    | nil => exact absurd (List.dropWhile_eq_nil_iff.mp hd e he) hne
    | cons x b =>
      refine ⟨x, l.key.takeWhile isTextByte, b, ?_, ?_, ?_⟩
      · rw [← hd, List.takeWhile_append_dropWhile]
      · exact fun c hc => List.mem_takeWhile_imp hc
      · have hhead := List.head?_dropWhile_not isTextByte l.key
        rw [hd] at hhead
        simpa using hhead
  have hcr : CR ∉ a := fun hx => absurd (ha CR hx) (by decide)
  obtain ⟨g, gs, hg, hpre⟩ := crlfLines_first (e :: b ++ s)
  have happ := crlfLines_append hcr hg
  rw [heq, List.append_assoc, happ] at hf
  obtain ⟨rfl, -⟩ := List.cons.inj hf
  have htake : (a ++ g).takeWhile isTextByte = a := by
    rw [List.takeWhile_append_of_pos ha]
    cases g with
    | nil => exact List.append_nil a
    | cons x g =>
      obtain ⟨rfl, -⟩ := List.cons_prefix_cons.mp hpre
      rw [List.takeWhile_cons_of_neg he, List.append_nil]
  have hcolon := hkeyed.colon
  rw [htake] at hcolon
  have hmem : ':'.toUInt8 ∈ l.key.tail := by
    rw [heq]
    cases a with
    | nil => cases hcolon
    | cons x a => exact List.mem_append_left _ hcolon
  exact (hl.key _ hmem).2 rfl

/-- A line whose first piece is keyed is clean. -/
theorem clean_of_keyed {l : HeaderLine} (hl : l.Ok) {s f : Bytes} {ls : List Bytes}
    (hf : crlfLines (l.render ++ s) = f :: ls) (hkeyed : KeyedLine f) : l.Clean := by
  have hrender : l.render ++ s = l.name ++ (l.value ++ (CRLF ++ s)) := by
    rw [HeaderLine.render, HeaderLine.text, List.append_assoc, List.append_assoc]
  rw [hrender] at hf
  have hkey : CR ∉ l.key ∧ LF ∉ l.key := by
    have hfront : crlfLines (l.key ++ (l.before ++ (':'.toUInt8 :: l.after) ++
        (l.value ++ (CRLF ++ s)))) = f :: ls := by
      rw [← List.append_assoc]
      exact hf
    exact key_free_of_keyed hl hfront hkeyed
  obtain ⟨g, gs, hg, hpre⟩ := crlfLines_first (l.value ++ (CRLF ++ s))
  rw [crlfLines_append (not_mem_name hl (.inl rfl) hkey.1) hg] at hf
  obtain ⟨rfl, -⟩ := List.cons.inj hf
  obtain ⟨c, hc, hcr, hlf⟩ := hkeyed.value
  have hvs := hl.value
  have hv0 := hl.value_head
  refine ⟨hkey, ?_⟩
  cases hv : l.value with
  | nil => exact absurd hv hl.value_ne
  | cons v value =>
    rw [hv] at hpre hvs hv0
    cases g with
    | nil =>
      rw [valuePart_name hl (by simp)] at hc
      cases hc
    | cons x g =>
      obtain ⟨rfl, -⟩ := List.cons_prefix_cons.mp hpre
      rw [valuePart_name hl (f := x :: g) hv0] at hc
      obtain rfl : x = c := Option.some.inj hc
      refine ⟨fun hx => ?_, fun hx => ?_⟩
      · cases List.mem_cons.mp hx with
        | inl hx => exact hcr hx.symm
        | inr hx => exact (hvs _ hx).1 rfl
      · cases List.mem_cons.mp hx with
        | inl hx => exact hlf hx.symm
        | inr hx => exact (hvs _ hx).2 rfl

theorem clean_of_keyedLines {ls : List HeaderLine} (hls : ∀ l ∈ ls, l.Ok)
    (hkeyed : KeyedLines (renderLines ls ++ CRLF)) : ∀ l ∈ ls, l.Clean := by
  induction ls with
  | nil => exact fun _ hx => by cases hx
  | cons l ls ih =>
    have hl := hls l List.mem_cons_self
    have hcons : renderLines (l :: ls) ++ CRLF = l.render ++ (renderLines ls ++ CRLF) :=
      List.append_assoc _ _ _
    obtain ⟨f, fs, hf, -⟩ := crlfLines_first (l.render ++ (renderLines ls ++ CRLF))
    have hclean : l.Clean := by
      by_cases hne : f = []
      · -- The first piece begins with the first byte of the key, which is not CR.
        subst hne
        cases hk : l.key with
        | nil => exact absurd hk hl.key_ne
        | cons k key =>
          have hkcr : k ≠ CR := fun hx => hl.key_head (by rw [hk, hx]; rfl)
          have hfront : l.render ++ (renderLines ls ++ CRLF) =
              [k] ++ (key ++ (l.before ++ (':'.toUInt8 :: l.after)) ++ l.value ++ CRLF ++
                (renderLines ls ++ CRLF)) := by
            simp [HeaderLine.render, HeaderLine.text, HeaderLine.name, hk]
          obtain ⟨g, gs, hg, -⟩ := crlfLines_first (key ++ (l.before ++ (':'.toUInt8 :: l.after)) ++
            l.value ++ CRLF ++ (renderLines ls ++ CRLF))
          rw [hfront, crlfLines_append (by simpa using hkcr.symm) hg] at hf
          cases (List.cons.inj hf).1
      · exact clean_of_keyed hl hf (hkeyed f (by rw [hcons, hf]; exact List.mem_cons_self) hne)
    have hlines : crlfLines (renderLines (l :: ls) ++ CRLF) =
        l.text :: crlfLines (renderLines ls ++ CRLF) := by
      rw [hcons, HeaderLine.render, List.append_assoc,
        crlfLines_append (not_mem_text hl hclean).1 (crlfLines_crlf _), List.append_nil]
    intro x hx
    cases List.mem_cons.mp hx with
    | inl hx => exact hx ▸ hclean
    | inr hx =>
      refine ih (fun y hy => hls y (List.mem_cons_of_mem _ hy)) (fun y hy => ?_) x hx
      exact hkeyed y (by rw [hlines]; exact List.mem_cons_of_mem _ hy)

theorem keyedLines_of_clean {ls : List HeaderLine} (hls : ∀ l ∈ ls, l.Ok)
    (hclean : ∀ l ∈ ls, l.Clean) : KeyedLines (renderLines ls ++ CRLF) := by
  have hcr : ∀ t ∈ ls.map HeaderLine.text, CR ∉ t := by
    intro t ht
    obtain ⟨l, hl, rfl⟩ := List.mem_map.mp ht
    exact (not_mem_text (hls l hl) (hclean l hl)).1
  intro t ht hne
  rw [renderLines_block, crlfLines_block hcr] at ht
  cases List.mem_append.mp ht with
  | inl ht =>
    obtain ⟨l, hl, rfl⟩ := List.mem_map.mp ht
    exact keyed_of_clean (hls l hl) (hclean l hl)
  | inr ht => exact absurd (by simpa using ht) hne

end HeaderLinesLemmas

open HeaderLinesLemmas ParseResumeLemmas RequestLineLemmas

/-! ## Strict lines -/

/-- The stored headers are the lines of the block exactly when every line has a colon behind its
first byte, in front of any line end, and a value that does not begin with a line end: those are
the places at which the parser lets CR and LF pass. -/
theorem strict_lines_iff {i : Input} (hi : AtHeaders i) {ps : List Bytes}
    (hfit : i.last + ps.flatten.length ≤ MAX_BUF - 1) {j : Input}
    (h : feedWith zvHttpParseRequestBody i ps = (j, .ok)) :
    StrictLines (ps.flatten.take (j.parsePos - i.parsePos)) (storedHeaders j) ↔
      KeyedLines (ps.flatten.take (j.parsePos - i.parsePos)) := by
  obtain ⟨ls, hls, ⟨u, hu⟩, hpos, hstored⟩ := feed_body hi hfit h
  have hblock : ps.flatten.take (j.parsePos - i.parsePos) = renderLines ls ++ CRLF := by
    rw [hpos, Nat.add_sub_cancel_left, hu, ← List.append_assoc, List.take_left]
  rw [hblock, hstored]
  refine ⟨fun hs => ?_, fun hk => ?_⟩
  · refine keyedLines_of_clean hls.lines fun l hl => ?_
    obtain ⟨hkey, hvalue⟩ := hs.free _ (List.mem_map_of_mem hl)
    exact ⟨hkey, hvalue⟩
  · have hclean := clean_of_keyedLines hls.lines hk
    refine ⟨fun t v heq => ?_, fun x hx => ?_, ls, rfl, rfl⟩
    · rw [renderLines_block] at heq
      refine block_lf (fun x hx => ?_) heq
      obtain ⟨l, hl, rfl⟩ := List.mem_map.mp hx
      exact (not_mem_text (hls.lines l hl) (hclean l hl)).2
    · obtain ⟨l, hl, rfl⟩ := List.mem_map.mp hx
      exact ⟨(hclean l hl).key, (hclean l hl).value⟩

/-- Two lines in two pieces. -/
theorem strict_lines_iff_hello :
    let i := (zvInitRequestT Request.zero 7 ⟨none, 0, 0⟩).inp
    let ps := [ascii "Host: x\r", ascii "\nA:b\r\n\r\n"]
    ∃ j, feedWith zvHttpParseRequestBody i ps = (j, .ok) ∧
      (StrictLines (ps.flatten.take (j.parsePos - i.parsePos)) (storedHeaders j) ↔
        KeyedLines (ps.flatten.take (j.parsePos - i.parsePos))) := by
  intro i ps
  have hrc : (feedWith zvHttpParseRequestBody i ps).2 = .ok := by decide +kernel
  exact ⟨_, Prod.ext rfl hrc, strict_lines_iff ⟨rfl, rfl, rfl⟩ (by decide) (Prod.ext rfl hrc)⟩

/-- A lone LF becomes part of a key. -/
theorem strict_lines_lone_lf :
    let i := (zvInitRequestT Request.zero 7 ⟨none, 0, 0⟩).inp
    let ps := [ascii "A\nB:x\r\n\r\n"]
    ∃ j, feedWith zvHttpParseRequestBody i ps = (j, .ok) ∧
      storedHeaders j = [(ascii "A\nB", ascii "x")] ∧
      ¬ StrictLines (ps.flatten.take (j.parsePos - i.parsePos)) (storedHeaders j) := by
  intro i ps
  have hrc : (feedWith zvHttpParseRequestBody i ps).2 = .ok := by decide +kernel
  have hst : storedHeaders (feedWith zvHttpParseRequestBody i ps).1 =
      [(ascii "A\nB", ascii "x")] := by decide +kernel
  generalize feedWith zvHttpParseRequestBody i ps = res at hrc hst
  obtain ⟨j, rc⟩ := res
  obtain rfl : rc = .ok := hrc
  have hst : storedHeaders j = [(ascii "A\nB", ascii "x")] := hst
  refine ⟨j, rfl, hst, fun hx => ?_⟩
  have hfree := hx.free
  rw [hst] at hfree
  exact (hfree _ List.mem_cons_self).1.2 (by decide)

/-! ## Empty values -/

/-- A header whose value is taken away is never accepted: the CR behind the colon becomes the
first byte of the value, and the LF behind it ends the parse. -/
theorem empty_value_rejected {i : Input} (hi : AtHeaders i) {ps : List Bytes}
    (hfit : i.last + ps.flatten.length ≤ MAX_BUF - 1) {j : Input}
    (h : feedWith zvHttpParseRequestBody i ps = (j, .ok)) :
    ∃ ls, ps.flatten.take (j.parsePos - i.parsePos) = renderLines ls ++ CRLF ∧
      storedHeaders j = ls.map (fun l => (l.key, l.value)) ∧
      ∀ ls₁ l ls₂, ls = ls₁ ++ l :: ls₂ →
        ∀ qs : List Bytes, qs.flatten = renderLines ls₁ ++ l.emptied ++ renderLines ls₂ ++ CRLF →
          (feedWith zvHttpParseRequestBody i qs).2 = .invalidHeader := by
  obtain ⟨ls, hls, ⟨u, hu⟩, hpos, hstored⟩ := feed_body hi hfit h
  refine ⟨ls, ?_, hstored, fun ls₁ l ls₂ hsplit qs hqs => ?_⟩
  · rw [hpos, Nat.add_sub_cancel_left, hu, ← List.append_assoc, List.take_left]
  · have hlen : qs.flatten.length ≤ ps.flatten.length := by
      rw [hqs, hu, hsplit]
      simp only [renderLines, List.flatMap_append, List.flatMap_cons, HeaderLine.emptied,
        HeaderLine.render, HeaderLine.text, List.length_append]
      omega
    have hmax : i.last + qs.flatten.length ≤ MAX_BUF := by
      have hle : MAX_BUF - 1 ≤ MAX_BUF := Nat.sub_le _ _
      omega
    have hfun : zvHttpParseRequestBody = headerParser.call := funext parseBody_eq
    have hmore : (headerParser.call i).2 = .again := call_again hi (by omega)
    rw [hfun, ← (@feedWith_call _ headerParser i qs hi.pos.le hmax hmore).1, call_headers hi hmax,
      hqs]
    obtain ⟨k, hfail⟩ := scan_emptied (hsplit ▸ hls) (i.load (renderLines ls₁ ++ l.emptied ++
      renderLines ls₂ ++ CRLF)) i.last
    rw [hfail]
    rfl

/-- One header in the block. -/
theorem empty_value_rejected_hello :
    let i := (zvInitRequestT Request.zero 7 ⟨none, 0, 0⟩).inp
    let ps := [ascii "A: b\r\n\r\n"]
    ∃ j ls, feedWith zvHttpParseRequestBody i ps = (j, .ok) ∧
      ps.flatten.take (j.parsePos - i.parsePos) = renderLines ls ++ CRLF ∧
      storedHeaders j = ls.map (fun l => (l.key, l.value)) ∧
      ∀ ls₁ l ls₂, ls = ls₁ ++ l :: ls₂ →
        ∀ qs : List Bytes, qs.flatten = renderLines ls₁ ++ l.emptied ++ renderLines ls₂ ++ CRLF →
          (feedWith zvHttpParseRequestBody i qs).2 = .invalidHeader := by
  intro i ps
  have hrc : (feedWith zvHttpParseRequestBody i ps).2 = .ok := by decide +kernel
  obtain ⟨ls, hls⟩ := empty_value_rejected (i := i) ⟨rfl, rfl, rfl⟩ (by decide) (Prod.ext rfl hrc)
  exact ⟨_, ls, Prod.ext rfl hrc, hls⟩

/-- The header `A: b` is stored, and without its value the block is an error. -/
theorem empty_value_not_accepted :
    let i := (zvInitRequestT Request.zero 7 ⟨none, 0, 0⟩).inp
    (feedWith zvHttpParseRequestBody i [ascii "A: b\r\n\r\n"]).2 = .ok ∧
      storedHeaders (feedWith zvHttpParseRequestBody i [ascii "A: b\r\n\r\n"]).1 =
        [(ascii "A", ascii "b")] ∧
      (feedWith zvHttpParseRequestBody i [ascii "A: \r\n\r\n"]).2 = .invalidHeader := by
  decide +kernel

end Zaver
