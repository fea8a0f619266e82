import Zaver.Persistence

/-!
# The receive buffer

`do_request` reads to the end of what is buffered, parses from `parse_pos` on and moves what
follows a request to the head of the buffer. The parsers leave pointers into it: the marks of
the request line and the spans of the headers. `Receiving` says that the window lies in the
buffer, that the marks are in order and that everything points at bytes that were received.

The tests of `do_request` for an overflow and for an invalid `parse_pos` guard states that do
not come up. `guardedPass` is a pass in which every such test, and what else the code takes
for granted about the buffer, is written down as a `Guard` with a branch of its own. That the
pass is the same whatever these branches do (`receive_buffer`) says that none is taken.
-/

namespace Zaver

open CString Runs Scan

/-! ## The invariant -/

/-- The marks of the request line that are set, in the order of the line. -/
def Input.marks (i : Input) : List Nat :=
  [i.requestStart, i.methodEnd, i.uriStart, i.uriEnd, i.requestEnd].reduceOption

/-- The spans of a header are set and end in front of offset `n`. -/
def Header.within (hd : Header) (n : Nat) : Bool :=
  match hd with
  | ⟨some ks, some ke, some vs, some ve⟩ =>
    decide (ks ≤ ke) && decide (ke < n) && decide (vs ≤ ve) && decide (ve < n)
  | _ => false

/-- The window lies in the buffer, and all pointers into the buffer are in the received
part. -/
structure Receiving (i : Input) : Prop extends Window i where
  sorted : i.marks.Pairwise (· ≤ ·)
  marks : ∀ p ∈ i.marks, p < i.last
  headers : ∀ hd ∈ i.list, hd.within i.last = true

instance (i : Input) : Decidable (Receiving i) :=
  decidable_of_iff ((i.parsePos ≤ i.last ∧ i.last ≤ MAX_BUF - 1) ∧ i.marks.Pairwise (· ≤ ·) ∧
      (∀ p ∈ i.marks, p < i.last) ∧ ∀ hd ∈ i.list, hd.within i.last = true)
    ⟨fun h => ⟨⟨h.1.1, h.1.2⟩, h.2.1, h.2.2.1, h.2.2.2⟩,
      fun h => ⟨⟨h.pos, h.last⟩, h.sorted, h.marks, h.headers⟩⟩

/-! ## A pass with its guards -/

/-- What `do_request` takes for granted about the buffer, by the place where it does. -/
inductive Guard
  | room | afterRead | endOfStream | afterAdvance | wrap | pointers | parsePos | headers
deriving DecidableEq, Repr

/-- Where a guard that does not hold leads. -/
abbrev GuardBranch := Guard → Conn → Conn × PassExit

/-- `request_done` with its guards: `parse_pos` is not behind `last`, and the bytes are moved
with an empty header list. -/
def guardedDone (g : GuardBranch) (e : PassEnv) (keepAlive : Bool) (c : Conn) : Conn × PassExit :=
  if c.r.inp.parsePos > c.r.inp.last then g .parsePos c
  else if c.r.inp.list ≠ [] then g .headers c
  else requestDone e keepAlive c

/-- `sendAndFinish` with guards. -/
def guardedSend (g : GuardBranch) (e : PassEnv) (keepAlive : Bool) (c : Conn) : Conn × PassExit :=
  match c.trySend e.send with
  | (c, .fail) => (c.closeLabel e.reaped, .closed)
  | (c, .again) => guardedDone g e keepAlive c.setWriting
  | (c, .done) => guardedDone g e keepAlive c.reset
  | (c, .inCall) => (c, .inCall)

/-- `replyPage` with guards. -/
def guardedPage (g : GuardBranch) (e : PassEnv) (page : ErrorPage) (keepAlive : Bool) (c : Conn) :
    Conn × PassExit :=
  match c.prepareError e.malloc page keepAlive with
  | (c, false) => (c.closeLabel e.reaped, .closed)
  | (c, true) => guardedSend g e keepAlive c

/-- `serveFile` with guards. -/
def guardedFile (g : GuardBranch) (lib : Libc) (e : PassEnv) (filename : Bytes) (c : Conn) :
    Conn × PassExit :=
  let out := zvInitOutT { keepAlive := false, mtime := e.outMtime, modified := false, status := 0 }
  let out := zvHttpHandleHeader lib e.tmIsdst c.r.inp out
  let c := { c with r := { c.r with inp := { c.r.inp with list := [] } } }
  let c := c.emit [.stat filename]
  match e.stat with
  | none =>
    guardedPage g e
      ⟨filename, ascii "404", ascii "Not Found", ascii "zaver can't find the file"⟩
      out.keepAlive c
  | some sb =>
    if isPathUnderRootReal e.realpath c.r.root filename = false then
      guardedPage g e ⟨filename, ascii "403", ascii "Forbidden", ascii "path is outside docroot"⟩
        out.keepAlive c
    else if sb.isReg = false ∨ sb.userRead = false then
      guardedPage g e ⟨filename, ascii "403", ascii "Forbidden", ascii "zaver can't read the file"⟩
        out.keepAlive c
    else
      let out :=
        { out with mtime := sb.mtime, status := if out.status = 0 then 200 else out.status }
      match c.prepareStatic lib e.openAns filename sb.size out with
      | (c, false) => (c.closeLabel e.reaped, .closed)
      | (c, true) => guardedSend g e out.keepAlive c

/-- `answer` with guards. -/
def guardedAnswer (g : GuardBranch) (lib : Libc) (e : PassEnv) (c : Conn) : Conn × PassExit :=
  let c := c.emit [.serve c.r.inp.served c.r.inp.method]
  match handleCgiMvp e c with
  | (c, .error) => (c.closeLabel e.reaped, .closed)
  | (c, .returned) => (c, .returned)
  | (c, .close) => (c.closeLabel e.reaped, .closed)
  | (c, .inCall) => (c, .inCall)
  | (c, .not) =>
    let uri := c.r.inp.span c.r.inp.uriStart c.r.inp.uriEnd
    match parseUri c.r.root uri SHORTLINE with
    | none => replyInvalidUri e c
    | some filename => guardedFile g lib e filename c

/-- `parseAndAnswer` with guards: no index of the parsers wraps around, and they leave
pointers to received bytes, also when they refuse. -/
def guardedParse (g : GuardBranch) (lib : Libc) (e : PassEnv) (c : Conn) : Conn × PassExit :=
  if (List.range c.r.inp.last).any (fun pi => pi % MAX_BUF ≠ pi) then g .wrap c
  else
    let c₁ := { c with r := { c.r with inp := (parsePhases c.r.inp).1 } }
    if ¬ Receiving c₁.r.inp then g .pointers c₁
    else
      let rc := (parsePhases c.r.inp).2
      if rc.code = ZV_AGAIN then (c₁, .next)
      else if rc.code ≠ ZV_OK then (c₁.closeLabel e.reaped, .closed)
      else guardedAnswer g lib e c₁

/-- A pass of `do_request` with guards: a read has room for a byte and gives no bytes only at
the end of the stream, and `last` stays below `MAX_BUF` before and after the bytes that were
read are counted. -/
def guardedPass (g : GuardBranch) (lib : Libc) (e : PassEnv) (c : Conn) : Conn × PassExit :=
  if c.r.inp.parsePos ≥ c.r.inp.last then
    if c.r.inp.last ≥ MAX_BUF - 1 then (c.closeLabel e.reaped, .closed)
    else if MAX_BUF - c.r.inp.last - 1 = 0 then g .room c
    else if ¬ c.r.inp.last < MAX_BUF then g .afterRead c
    else
      match e.read with
      | .ok stream =>
        let bs := stream.take (MAX_BUF - c.r.inp.last - 1)
        if bs = [] then
          if stream ≠ [] then g .endOfStream c else (c.closeLabel e.reaped, .closed)
        else
          let c₁ := { c.emit [.recv bs] with r := { c.r with inp := c.r.inp.load bs } }
          if ¬ c₁.r.inp.last < MAX_BUF then g .afterAdvance c₁ else guardedParse g lib e c₁
      | .eagain => (c, .idle)
      | _ => (c.closeLabel e.reaped, .closed)
  else guardedParse g lib e c

/-! ## What the parsers leave -/

/-- The marks of the request line, before any header was stored. -/
structure LineMarks (i : Input) (a b c d : Option Nat) : Prop where
  requestStart : i.requestStart = a
  methodEnd : i.methodEnd = b
  uriStart : i.uriStart = c
  uriEnd : i.uriEnd = d
  requestEnd : i.requestEnd = none
  list : i.list = []
  headerState : i.headerState = .swStart

/-- Where the marks stand when the parser of the request line is in `state` at offset `p`. -/
def AtLine (state : LineState) (p : Nat) (i : Input) : Prop :=
  match state with
  | .swStart => ∃ a, LineMarks i a none none none ∧ ∀ x ∈ a, x < p
  | .swMethod => ∃ a, LineMarks i (some a) none none none ∧ a < p
  | .swSpacesBeforeUri => ∃ a b, LineMarks i (some a) (some b) none none ∧ a ≤ b ∧ b < p
  | .swAfterSlashInUri =>
    ∃ a b c, LineMarks i (some a) (some b) (some c) none ∧ a ≤ b ∧ b ≤ c ∧ c < p
  -- The byte in front of `p` is the CR that ends the line.
  | .swAlmostDone =>
    ∃ a b c d, LineMarks i (some a) (some b) (some c) (some d) ∧ a ≤ b ∧ b ≤ c ∧ c ≤ d ∧ d + 1 < p
  | _ => ∃ a b c d, LineMarks i (some a) (some b) (some c) (some d) ∧ a ≤ b ∧ b ≤ c ∧ c ≤ d ∧ d < p

/-- The marks are in order and in front of offset `n`. -/
structure Marked (n : Nat) (i : Input) : Prop where
  sorted : i.marks.Pairwise (· ≤ ·)
  marks : ∀ p ∈ i.marks, p < n

/-- All marks are set. -/
def LineDone (n : Nat) (i : Input) : Prop :=
  ∃ a b c d e, i.requestStart = some a ∧ i.methodEnd = some b ∧ i.uriStart = some c ∧
    i.uriEnd = some d ∧ i.requestEnd = some e ∧ a ≤ b ∧ b ≤ c ∧ c ≤ d ∧ d ≤ e ∧ e < n

/-- Where the spans of the current header stand when the header parser is in `state` at offset
`p`. -/
def AtHeader (state : HeaderState) (p : Nat) (i : Input) : Prop :=
  match state with
  | .swStart | .swCrlf | .swCrlfcr => True
  | .swKey => ∃ a, i.curHeaderKeyStart = some a ∧ a < p
  | .swSpacesBeforeColon | .swSpacesAfterColon =>
    ∃ a b, i.curHeaderKeyStart = some a ∧ i.curHeaderKeyEnd = some b ∧ a ≤ b ∧ b < p
  | .swValue =>
    ∃ a b c, i.curHeaderKeyStart = some a ∧ i.curHeaderKeyEnd = some b ∧
      i.curHeaderValueStart = some c ∧ a ≤ b ∧ b < p ∧ c < p
  | .swCr =>
    ∃ a b c d, i.curHeaderKeyStart = some a ∧ i.curHeaderKeyEnd = some b ∧
      i.curHeaderValueStart = some c ∧ i.curHeaderValueEnd = some d ∧ a ≤ b ∧ b < p ∧ c ≤ d ∧ d < p

/-- The stored headers end in front of offset `n`. -/
def HeadersWithin (n : Nat) (i : Input) : Prop := ∀ hd ∈ i.list, hd.within n = true

/-- The receive window and the parser fields between two calls of the parsers. -/
structure Parsing (i : Input) : Prop extends Window i where
  line : i.parsePhase = .line → AtLine i.requestLineState i.parsePos i
  done : i.parsePhase ≠ .line → LineDone i.parsePos i ∧ HeadersWithin i.parsePos i
  header : i.parsePhase = .headers → AtHeader i.headerState i.parsePos i

/-- The fields after a request line was refused, once or more often: what the first attempt
left, but for the version. -/
def Refused (i : Input) : Prop :=
  ∃ i₀ v w, Parsing i₀ ∧ Stuck i₀ ∧
    i = { (zvHttpParseRequestLine i₀).1 with httpMajor := v, httpMinor := w }

namespace ReceiveBufferLemmas

open ParseResumeLemmas RefusedLineLemmas ConnectionLemmas AnswerLemmas PersistenceLemmas

/-! ### Request line -/

theorem lineMarks_marked {i : Input} {a b c d : Option Nat} (h : LineMarks i a b c d) {n : Nat}
    (hs : [a, b, c, d].reduceOption.Pairwise (· ≤ ·)) (hn : ∀ p ∈ [a, b, c, d].reduceOption, p < n) :
    Marked n i := by
  have hm : i.marks = [a, b, c, d].reduceOption := by
    unfold Input.marks
    rw [h.requestStart, h.methodEnd, h.uriStart, h.uriEnd, h.requestEnd]
    cases a <;> cases b <;> cases c <;> cases d <;> rfl
  exact ⟨hm ▸ hs, hm ▸ hn⟩

theorem atLine_marked {state : LineState} {p : Nat} {i : Input} (h : AtLine state p i) :
    Marked p i ∧ i.list = [] := by
  cases state with
  | swStart =>
    obtain ⟨a, hm, ha⟩ := h
    refine ⟨lineMarks_marked hm ?_ ?_, hm.list⟩ <;> cases a <;> simp_all [List.reduceOption]
  | swMethod =>
    obtain ⟨a, hm, ha⟩ := h
    exact ⟨lineMarks_marked hm (by simp [List.reduceOption]) (by simp [List.reduceOption, ha]), hm.list⟩
  | swSpacesBeforeUri =>
    obtain ⟨a, b, hm, ha, hb⟩ := h
    refine ⟨lineMarks_marked hm ?_ ?_, hm.list⟩ <;> simp [List.reduceOption] <;> omega
  | swAfterSlashInUri =>
    obtain ⟨a, b, c, hm, ha, hb, hc⟩ := h
    refine ⟨lineMarks_marked hm ?_ ?_, hm.list⟩ <;> simp [List.reduceOption] <;> omega
  | _ =>
    obtain ⟨a, b, c, d, hm, ha, hb, hc, hd⟩ := h
    refine ⟨lineMarks_marked hm ?_ ?_, hm.list⟩ <;> simp [List.reduceOption] <;> omega

/-- Only the marks, the header list and the state of the header parser matter. -/
theorem atLine_congr {state : LineState} {p : Nat} {i j : Input} (h : AtLine state p i)
    (hm : ∀ {a b c d}, LineMarks i a b c d → LineMarks j a b c d) : AtLine state p j := by
  cases state with
  | swStart | swMethod =>
    obtain ⟨a, hi, ha⟩ := h
    exact ⟨a, hm hi, ha⟩
  | swSpacesBeforeUri =>
    obtain ⟨a, b, hi, hb⟩ := h
    exact ⟨a, b, hm hi, hb⟩
  | swAfterSlashInUri =>
    obtain ⟨a, b, c, hi, hc⟩ := h
    exact ⟨a, b, c, hm hi, hc⟩
  | _ =>
    obtain ⟨a, b, c, d, hi, hd⟩ := h
    exact ⟨a, b, c, d, hm hi, hd⟩

theorem marked_mono {n m : Nat} {i : Input} (h : Marked n i) (hle : n ≤ m) : Marked m i :=
  ⟨h.sorted, fun p hp => (h.marks p hp).trans_le hle⟩

/-- The line with which the parser accepts at the byte in front of `p`. -/
structure LineEnd (p : Nat) (i : Input) (a b c d : Nat) : Prop where
  requestStart : i.requestStart = some a
  methodEnd : i.methodEnd = some b
  uriStart : i.uriStart = some c
  uriEnd : i.uriEnd = some d
  method : a ≤ b
  uri : b ≤ c
  path : c ≤ d
  version : d + 1 < p
  requestEnd : ∀ e ∈ i.requestEnd, d ≤ e ∧ e < p
  list : i.list = []
  headerState : i.headerState = .swStart

theorem lineByte_sat (i : Input) (state : LineState) (p : Nat) (ch : UInt8) {n : Nat} (hp : p < n)
    (h : AtLine state p i) :
    (lineByte i state p ch).Sat AtLine (fun p i => ∃ a b c d, LineEnd p i a b c d)
      (fun i => Marked n i ∧ i.list = []) p := by
  have hm : Marked n i ∧ i.list = [] :=
    ⟨marked_mono (atLine_marked h).1 hp.le, (atLine_marked h).2⟩
  cases state with
  | swStart =>
    obtain ⟨a, ⟨hrs, hme, hus, hue, hre, hl, hh⟩, ha⟩ := h
    have hm' : LineMarks { i with requestStart := some p } (some p) none none none :=
      ⟨rfl, hme, hus, hue, hre, hl, hh⟩
    unfold lineByte
    dsimp only
    split
    · exact ⟨_, hm', fun x hx => by cases hx; exact Nat.lt_succ_self p⟩
    · split
      · exact ⟨lineMarks_marked hm' (by simp [List.reduceOption]) (by simp [List.reduceOption, hp]),
          hl⟩
      · exact ⟨p, hm', Nat.lt_succ_self p⟩
  | swMethod =>
    obtain ⟨a, ⟨hrs, hme, hus, hue, hre, hl, hh⟩, ha⟩ := h
    unfold lineByte
    dsimp only
    split
    · rw [setMethod_eq]
      exact ⟨a, p, ⟨hrs, rfl, hus, hue, hre, hl, hh⟩, ha.le, Nat.lt_succ_self p⟩
    · split
      · exact hm
      · exact ⟨a, ⟨hrs, hme, hus, hue, hre, hl, hh⟩, Nat.lt_succ_of_lt ha⟩
  | swSpacesBeforeUri =>
    obtain ⟨a, b, ⟨hrs, hme, hus, hue, hre, hl, hh⟩, ha, hb⟩ := h
    unfold lineByte
    dsimp only
    split
    · exact ⟨a, b, p, ⟨hrs, hme, rfl, hue, hre, hl, hh⟩, ha, hb.le, Nat.lt_succ_self p⟩
    · split
      · exact ⟨a, b, ⟨hrs, hme, hus, hue, hre, hl, hh⟩, ha, Nat.lt_succ_of_lt hb⟩
      · exact hm
  | swAfterSlashInUri =>
    obtain ⟨a, b, c, ⟨hrs, hme, hus, hue, hre, hl, hh⟩, ha, hb, hc⟩ := h
    unfold lineByte
    dsimp only
    split
    · exact ⟨a, b, c, p, ⟨hrs, hme, hus, rfl, hre, hl, hh⟩, ha, hb, hc.le, Nat.lt_succ_self p⟩
    · exact ⟨a, b, c, ⟨hrs, hme, hus, hue, hre, hl, hh⟩, ha, hb, Nat.lt_succ_of_lt hc⟩
  | swAlmostDone =>
    obtain ⟨a, b, c, d, ⟨hrs, hme, hus, hue, hre, hl, hh⟩, ha, hb, hc, hd⟩ := h
    unfold lineByte
    dsimp only
    split
    · refine ⟨a, b, c, d, hrs, hme, hus, hue, ha, hb, hc, by omega, fun e he => ?_, hl, hh⟩
      obtain rfl := Option.some.inj he
      omega
    · refine ⟨⟨?_, ?_⟩, hl⟩ <;> simp [Input.marks, List.reduceOption, hrs, hme, hus, hue] <;> omega
  | _ =>
    -- The states of the version leave the marks as they are.
    obtain ⟨a, b, c, d, ⟨hrs, hme, hus, hue, hre, hl, hh⟩, ha, hb, hc, hd⟩ := h
    have hd' : d < p + 1 := Nat.lt_succ_of_lt hd
    have hend : ∀ e ∈ i.requestEnd, d ≤ e ∧ e < p + 1 := by
      rw [hre]
      exact fun _ hx => by cases hx
    unfold lineByte
    dsimp only
    repeat' split
    all_goals first
      | exact hm
      | exact ⟨a, b, c, d, ⟨hrs, hme, hus, hue, hre, hl, hh⟩, ha, hb, hc, hd'⟩
      | exact ⟨a, b, c, d, ⟨hrs, hme, hus, hue, hre, hl, hh⟩, ha, hb, hc, Nat.succ_lt_succ hd⟩
      | exact ⟨a, b, c, d, hrs, hme, hus, hue, ha, hb, hc, Nat.succ_lt_succ hd, hend, hl, hh⟩

theorem lineDone_marked {n : Nat} {i : Input} (h : LineDone n i) : Marked n i := by
  obtain ⟨a, b, c, d, e, hrs, hme, hus, hue, hre, ha, hb, hc, hd, he⟩ := h
  refine ⟨?_, ?_⟩ <;> simp [Input.marks, List.reduceOption, hrs, hme, hus, hue, hre] <;> omega

/-- What a call of the parser of the request line leaves. -/
theorem parseLine_marks {i : Input} (hw : Window i) (h : AtLine i.requestLineState i.parsePos i)
    {j : Input} {rc : ParseRc} (hp : zvHttpParseRequestLine i = (j, rc)) :
    (rc = .again → AtLine j.requestLineState j.parsePos j) ∧
      (rc = .ok → LineDone j.parsePos j ∧ j.list = [] ∧ j.headerState = .swStart) ∧
      (rc ≠ .again → rc ≠ .ok → Marked i.last j ∧ j.list = []) := by
  have hn : i.parsePos + i.window.length ≤ i.last := by
    rw [length_window]
    exact (Nat.add_sub_cancel' hw.pos).le
  have hs := scan_sat (fun k st q ch hq hk => lineByte_sat k st q ch hq hk) h hn
  rw [parseLine_eq] at hp
  unfold Parser.call at hp
  have hrc : ∀ k rc', scan lineByte i i.requestLineState i.parsePos i.window = .fail k rc' →
      rc' ≠ .ok ∧ rc' ≠ .again :=
    fun _ _ hfail => scan_fail (fun _ _ _ _ _ _ => lineByte_fail) hfail
  change lineParser.finish (scan lineByte i i.requestLineState i.parsePos i.window) = _ at hp
  generalize scan lineByte i i.requestLineState i.parsePos i.window = res at hs hp hrc
  cases res with
  | more k st q =>
    obtain ⟨rfl, rfl⟩ := Prod.mk.inj hp
    exact ⟨fun _ => atLine_congr hs fun ⟨hrs, hme, hus, hue, hre, hl, hh⟩ =>
      ⟨hrs, hme, hus, hue, hre, hl, hh⟩, (fun hx => by cases hx), fun hx => absurd rfl hx⟩
  | done k q =>
    obtain ⟨rfl, rfl⟩ := Prod.mk.inj hp
    obtain ⟨a, b, c, d, hk⟩ := hs
    refine ⟨(fun hx => by cases hx), fun _ => ?_, fun _ hx => absurd rfl hx⟩
    refine ⟨⟨a, b, c, d, k.requestEnd.getD (q - 1), hk.requestStart, hk.methodEnd, hk.uriStart,
      hk.uriEnd, ?_, hk.method, hk.uri, hk.path, ?_⟩, hk.list, hk.headerState⟩
    · show k.requestEnd.or (some (q - 1)) = _
      cases k.requestEnd <;> rfl
    · have hv := hk.version
      show d ≤ k.requestEnd.getD (q - 1) ∧ k.requestEnd.getD (q - 1) < q
      cases hre : k.requestEnd with
      | none =>
        show d ≤ q - 1 ∧ q - 1 < q
        omega
      | some e => exact hk.requestEnd e hre
  | fail k rc' =>
    obtain ⟨rfl, rfl⟩ := Prod.mk.inj hp
    obtain ⟨hok, hagain⟩ := hrc k rc' rfl
    exact ⟨fun hx => absurd hx hagain, fun hx => absurd hx hok, fun _ _ => hs⟩

/-! ### Headers -/

theorem within_mono {hd : Header} {n m : Nat} (h : hd.within n = true) (hle : n ≤ m) :
    hd.within m = true := by
  unfold Header.within at h ⊢
  split at h
  · simp only [Bool.and_eq_true, decide_eq_true_eq] at h ⊢
    omega
  · cases h

theorem headersWithin_mono {n m : Nat} {i : Input} (h : HeadersWithin n i) (hle : n ≤ m) :
    HeadersWithin m i := fun hd hmem => within_mono (h hd hmem) hle

theorem lineDone_mono {n m : Nat} {i : Input} (h : LineDone n i) (hle : n ≤ m) : LineDone m i := by
  obtain ⟨a, b, c, d, e, hrs, hme, hus, hue, hre, ha, hb, hc, hd, he⟩ := h
  exact ⟨a, b, c, d, e, hrs, hme, hus, hue, hre, ha, hb, hc, hd, he.trans_le hle⟩

/-- Only the spans of the current header matter. -/
theorem atHeader_congr {state : HeaderState} {p : Nat} {i j : Input} (h : AtHeader state p i)
    (hks : j.curHeaderKeyStart = i.curHeaderKeyStart) (hke : j.curHeaderKeyEnd = i.curHeaderKeyEnd)
    (hvs : j.curHeaderValueStart = i.curHeaderValueStart)
    (hve : j.curHeaderValueEnd = i.curHeaderValueEnd) : AtHeader state p j := by
  unfold AtHeader at h ⊢
  rw [hks, hke, hvs, hve]
  exact h

/-- What the header parser keeps: the marks of the line, and the stored headers. -/
structure InHeaders (p : Nat) (i : Input) : Prop where
  line : LineDone p i
  headers : HeadersWithin p i

theorem InHeaders.mono {n m : Nat} {i : Input} (h : InHeaders n i) (hle : n ≤ m) : InHeaders m i :=
  ⟨lineDone_mono h.line hle, headersWithin_mono h.headers hle⟩

theorem headerByte_sat (i : Input) (state : HeaderState) (p : Nat) (ch : UInt8) {n : Nat}
    (hp : p < n) (h : InHeaders p i ∧ AtHeader state p i) :
    (headerByte i state p ch).Sat (fun state p i => InHeaders p i ∧ AtHeader state p i)
      InHeaders (InHeaders n) p := by
  obtain ⟨⟨hline, hlist⟩, hst⟩ := h
  have hline' := lineDone_mono hline p.le_succ
  have hlist' := headersWithin_mono hlist p.le_succ
  have hn : InHeaders n i := ⟨lineDone_mono hline hp.le, headersWithin_mono hlist hp.le⟩
  have hlt := Nat.lt_succ_self p
  cases state with
  | swStart =>
    unfold headerByte
    dsimp only
    split
    · exact ⟨⟨hline', hlist'⟩, trivial⟩
    · split
      · exact hn
      · exact ⟨⟨hline', hlist'⟩, p, rfl, hlt⟩
  | swKey =>
    obtain ⟨a, hks, ha⟩ := hst
    unfold headerByte
    dsimp only
    split
    · exact ⟨⟨hline', hlist'⟩, a, p, hks, rfl, ha.le, hlt⟩
    · split
      · exact ⟨⟨hline', hlist'⟩, a, p, hks, rfl, ha.le, hlt⟩
      · exact ⟨⟨hline', hlist'⟩, a, hks, ha.trans hlt⟩
  | swSpacesBeforeColon =>
    obtain ⟨a, b, hks, hke, ha, hb⟩ := hst
    unfold headerByte
    dsimp only
    split
    · exact ⟨⟨hline', hlist'⟩, a, b, hks, hke, ha, hb.trans hlt⟩
    · split
      · exact ⟨⟨hline', hlist'⟩, a, b, hks, hke, ha, hb.trans hlt⟩
      · exact hn
  | swSpacesAfterColon =>
    obtain ⟨a, b, hks, hke, ha, hb⟩ := hst
    unfold headerByte
    dsimp only
    split
    · exact ⟨⟨hline', hlist'⟩, a, b, hks, hke, ha, hb.trans hlt⟩
    · exact ⟨⟨hline', hlist'⟩, a, b, p, hks, hke, rfl, ha, hb.trans hlt, hlt⟩
  | swValue =>
    obtain ⟨a, b, c, hks, hke, hvs, ha, hb, hc⟩ := hst
    unfold headerByte
    dsimp only
    split
    · exact ⟨⟨hline', hlist'⟩, a, b, c, p, hks, hke, hvs, rfl, ha, hb.trans hlt, hc.le, hlt⟩
    · split
      · exact hn
      · exact ⟨⟨hline', hlist'⟩, a, b, c, hks, hke, hvs, ha, hb.trans hlt, hc.trans hlt⟩
  | swCr =>
    obtain ⟨a, b, c, d, hks, hke, hvs, hve, ha, hb, hc, hd⟩ := hst
    unfold headerByte
    dsimp only
    split
    · refine ⟨⟨hline', fun hd' hmem => ?_⟩, trivial⟩
      rcases List.mem_cons.mp hmem with rfl | hmem
      · rw [hks, hke, hvs, hve]
        simp [Header.within, ha, hb.trans hlt, hc, hd.trans hlt]
      · exact hlist' hd' hmem
    · exact hn
  | swCrlf =>
    unfold headerByte
    dsimp only
    split
    · exact ⟨⟨hline', hlist'⟩, trivial⟩
    · exact ⟨⟨hline', hlist'⟩, p, rfl, hlt⟩
  | swCrlfcr =>
    unfold headerByte
    dsimp only
    split
    · exact ⟨hline', hlist'⟩
    · exact hn

/-- What a call of the header parser leaves. -/
theorem parseBody_spans {i : Input} (hw : Window i) (h : InHeaders i.parsePos i)
    (hst : AtHeader i.headerState i.parsePos i) {j : Input} {rc : ParseRc}
    (hp : zvHttpParseRequestBody i = (j, rc)) :
    (rc = .again → InHeaders j.parsePos j ∧ AtHeader j.headerState j.parsePos j) ∧
      (rc = .ok → InHeaders j.parsePos j) ∧
      (rc ≠ .again → rc ≠ .ok → InHeaders i.last j) := by
  have hn : i.parsePos + i.window.length ≤ i.last := by
    rw [length_window]
    exact (Nat.add_sub_cancel' hw.pos).le
  have hs := scan_sat (P := fun state p i => InHeaders p i ∧ AtHeader state p i)
    (fun k st q ch hq hk => headerByte_sat k st q ch hq hk) ⟨h, hst⟩ hn
  rw [parseBody_eq] at hp
  unfold Parser.call at hp
  have hrc : ∀ k rc', scan headerByte i i.headerState i.parsePos i.window = .fail k rc' →
      rc' ≠ .ok ∧ rc' ≠ .again :=
    fun _ _ hfail => scan_fail (fun _ _ _ _ _ _ => headerByte_fail) hfail
  change headerParser.finish (scan headerByte i i.headerState i.parsePos i.window) = _ at hp
  generalize scan headerByte i i.headerState i.parsePos i.window = res at hs hp hrc
  cases res with
  | more k st q =>
    obtain ⟨rfl, rfl⟩ := Prod.mk.inj hp
    obtain ⟨hin, hst'⟩ := hs
    exact ⟨fun _ => ⟨⟨hin.line, hin.headers⟩, atHeader_congr hst' rfl rfl rfl rfl⟩,
      (fun hx => by cases hx), fun hx => absurd rfl hx⟩
  | done k q =>
    obtain ⟨rfl, rfl⟩ := Prod.mk.inj hp
    exact ⟨(fun hx => by cases hx), fun _ => ⟨hs.line, hs.headers⟩, fun _ hx => absurd rfl hx⟩
  | fail k rc' =>
    obtain ⟨rfl, rfl⟩ := Prod.mk.inj hp
    obtain ⟨hok, hagain⟩ := hrc k rc' rfl
    exact ⟨fun hx => absurd hx hagain, fun hx => absurd hx hok, fun _ _ => hs⟩

/-! ### The phase machine -/

theorem lineByte_pos (i : Input) (state : LineState) (p : Nat) (ch : UInt8) :
    (lineByte i state p ch).record.parsePos = i.parsePos := by
  cases state <;> unfold lineByte <;> dsimp only <;> split_ifs <;>
    first
    | rfl
    | rw [setMethod_eq]; rfl

theorem headerByte_pos (i : Input) (state : HeaderState) (p : Nat) (ch : UInt8) :
    (headerByte i state p ch).record.parsePos = i.parsePos := by
  cases state <;> unfold headerByte <;> dsimp only <;> split_ifs <;> rfl

/-- A parser that fails leaves `parse_pos` where it was. -/
theorem call_fail_pos {σ : Type} {P : Parser σ}
    (hstep : ∀ i st p ch, (P.step i st p ch).record.parsePos = i.parsePos) {i j : Input}
    {rc : ParseRc} (h : P.call i = (j, rc)) (hagain : rc ≠ .again) (hok : rc ≠ .ok) :
    j.parsePos = i.parsePos := by
  have hrec := scan_record (P := fun k => k.parsePos = i.parsePos)
    (fun k st p ch hk => (hstep k st p ch).trans hk) rfl (P.state i) i.parsePos i.window
  unfold Parser.call at h
  generalize scan P.step i (P.state i) i.parsePos i.window = res at h hrec
  cases res with
  | more k st q => exact absurd (Prod.mk.inj h).2.symm hagain
  | done k q => exact absurd (Prod.mk.inj h).2.symm hok
  | fail k rc' =>
    obtain ⟨rfl, rfl⟩ := Prod.mk.inj h
    exact hrec

theorem receiving_of {i : Input} (hw : Window i) (hm : Marked i.last i)
    (hh : HeadersWithin i.last i) : Receiving i :=
  ⟨hw, hm.sorted, hm.marks, hh⟩

theorem inHeaders_receiving {i : Input} (hw : Window i) (h : InHeaders i.last i) : Receiving i :=
  receiving_of hw (lineDone_marked h.line) h.headers

theorem nil_within {n : Nat} {i : Input} (h : i.list = []) : HeadersWithin n i := by
  intro hd hmem
  rw [h] at hmem
  exact absurd hmem List.not_mem_nil

theorem parsing_receiving {i : Input} (h : Parsing i) : Receiving i := by
  by_cases hph : i.parsePhase = .line
  · obtain ⟨hm, hl⟩ := atLine_marked (h.line hph)
    exact receiving_of h.toWindow (marked_mono hm h.pos) (nil_within hl)
  · obtain ⟨hline, hlist⟩ := h.done hph
    exact inHeaders_receiving h.toWindow (InHeaders.mono ⟨hline, hlist⟩ h.pos)

theorem headerPhase_receiving {i j : Input} {rc : ParseRc} (h : Parsing i)
    (hph : i.parsePhase ≠ .line) (hp : headerPhase i = (j, rc)) :
    Receiving j ∧ (rc = .again ∨ rc = .ok → Parsing j) := by
  obtain ⟨hline, hlist⟩ := h.done hph
  obtain ⟨hwin, hmore, hok⟩ := headerPhase_frame h.pos
  rw [hp] at hwin hmore hok
  have hlast : j.last ≤ MAX_BUF - 1 := hwin.last.le.trans h.last
  by_cases hhd : i.parsePhase = .headers
  · have hframe := headerParser.call_frame i
    rw [headerPhase_cases hhd] at hp
    rw [← parseBody_eq] at hp hframe
    obtain ⟨k, rc', hk⟩ : ∃ k rc', zvHttpParseRequestBody i = (k, rc') := ⟨_, _, rfl⟩
    obtain ⟨hagain, hdone, hfail⟩ := parseBody_spans h.toWindow ⟨hline, hlist⟩ (h.header hhd) hk
    rw [hk] at hp hframe
    dsimp only at hp hframe
    split at hp
    · next hrc =>
      obtain ⟨rfl, rfl⟩ := Prod.mk.inj hp
      have hin := hdone hrc
      have hw : Window { k with parsePhase := .ready } := ⟨hwin.last ▸ (hok rfl).2, hlast⟩
      have hpar : Parsing { k with parsePhase := .ready } :=
        ⟨hw, (fun hx => by cases hx), fun _ => ⟨hin.line, hin.headers⟩, (fun hx => by cases hx)⟩
      exact ⟨parsing_receiving hpar, fun _ => hpar⟩
    · next hrc =>
      obtain ⟨rfl, rfl⟩ := Prod.mk.inj hp
      by_cases hag : rc' = .again
      · obtain ⟨hin, hst⟩ := hagain hag
        obtain ⟨hpos, hph'⟩ := hmore hag
        have hw : Window k := ⟨hwin.last ▸ hpos.le, hlast⟩
        have hpar : Parsing k :=
          ⟨hw, (fun hx => by cases hx.symm.trans hph'), fun _ => ⟨hin.line, hin.headers⟩, fun _ => hst⟩
        exact ⟨parsing_receiving hpar, fun _ => hpar⟩
      · have hpos : k.parsePos ≤ k.last := by
          rw [call_fail_pos headerByte_pos (parseBody_eq i ▸ hk) hag hrc, hwin.last]
          exact h.pos
        refine ⟨inHeaders_receiving ⟨hpos, hlast⟩ ?_, fun hx => (hx.elim hag hrc).elim⟩
        exact hwin.last ▸ hfail hag hrc
  · rw [headerPhase_ready hhd] at hp
    obtain ⟨rfl, rfl⟩ := Prod.mk.inj hp
    exact ⟨parsing_receiving h, fun _ => h⟩

theorem parsePhases_receiving {i j : Input} {rc : ParseRc} (h : Parsing i)
    (hp : parsePhases i = (j, rc)) : Receiving j ∧ (rc = .again ∨ rc = .ok → Parsing j) := by
  by_cases hph : i.parsePhase = .line
  · have hwin := SameWindow.of_frame (lineParser.call_frame i)
    obtain ⟨hmore, hok⟩ := lineParser.call_pos h.pos
    have hframe := congrArg (fun x => x.2.2) (lineParser.call_frame i)
    rw [parsePhases_line hph] at hp
    rw [← parseLine_eq] at hp hwin hmore hok hframe
    obtain ⟨k, rc', hk⟩ : ∃ k rc', zvHttpParseRequestLine i = (k, rc') := ⟨_, _, rfl⟩
    obtain ⟨hagain, hdone, hfail⟩ := parseLine_marks h.toWindow (h.line hph) hk
    rw [hk] at hp hwin hmore hok hframe
    dsimp only at hp hwin hmore hok hframe
    have hlast : k.last ≤ MAX_BUF - 1 := hwin.last.le.trans h.last
    split at hp
    · next hrc =>
      obtain ⟨hline, hl, hst⟩ := hdone hrc
      have hw : Window { k with parsePhase := .headers } := ⟨hwin.last ▸ (hok hrc).2, hlast⟩
      refine headerPhase_receiving ⟨hw, (fun hx => by cases hx), fun _ => ⟨hline, nil_within hl⟩, ?_⟩
        (fun hx => by cases hx) hp
      intro _
      show AtHeader k.headerState _ _
      rw [hst]
      trivial
    · next hrc =>
      obtain ⟨rfl, rfl⟩ := Prod.mk.inj hp
      by_cases hag : rc' = .again
      · have hw : Window k := ⟨hwin.last ▸ (hmore hag).le, hlast⟩
        have hline : k.parsePhase = .line := hframe.trans hph
        have hpar : Parsing k :=
          ⟨hw, fun _ => hagain hag, fun hx => absurd hline hx, fun hx => by cases hline.symm.trans hx⟩
        exact ⟨parsing_receiving hpar, fun _ => hpar⟩
      · obtain ⟨hm, hl⟩ := hfail hag hrc
        have hpos : k.parsePos ≤ k.last := by
          rw [call_fail_pos lineByte_pos (parseLine_eq i ▸ hk) hag hrc, hwin.last]
          exact h.pos
        refine ⟨receiving_of ⟨hpos, hlast⟩ (hwin.last ▸ hm) (nil_within hl), ?_⟩
        exact fun hx => (hx.elim hag hrc).elim
  · rw [parsePhases_headers hph] at hp
    exact headerPhase_receiving h hph hp

/-! ### Refused lines -/

theorem refused_of_stuck {i : Input} (h : Parsing i) (hs : Stuck i) :
    Refused (zvHttpParseRequestLine i).1 :=
  ⟨i, _, _, h, hs, rfl⟩

theorem refused_parse {i : Input} (h : Refused i) : ∃ v w,
    zvHttpParseRequestLine i = ({ i with httpMajor := v, httpMinor := w }, .invalidRequest) := by
  obtain ⟨i₀, v, w, -, hs, rfl⟩ := h
  exact parseLine_again hs.line (fun hx => by cases hx) (fun hx => by cases hx) v w

theorem refused_stuck {i : Input} (h : Refused i) : Stuck i := by
  obtain ⟨v, w, hp⟩ := refused_parse h
  obtain ⟨i₀, v₀, w₀, -, hs, rfl⟩ := h
  exact ⟨hs.again.phase, hs.again.unparsed, congrArg Prod.snd hp⟩

theorem refused_again {i : Input} (h : Refused i) : Refused (zvHttpParseRequestLine i).1 := by
  obtain ⟨v, w, hp⟩ := refused_parse h
  rw [hp]
  obtain ⟨i₀, v₀, w₀, hpar, hs, rfl⟩ := h
  exact ⟨i₀, v, w, hpar, hs, rfl⟩

theorem refused_receiving {i : Input} (h : Refused i) : Receiving i := by
  obtain ⟨i₀, v, w, hpar, hs, rfl⟩ := h
  obtain ⟨hw, hsorted, hmarks, hlist⟩ := (parsePhases_receiving hpar hs.parse).1
  exact ⟨⟨hw.pos, hw.last⟩, hsorted, hmarks, hlist⟩

/-! ### Callbacks -/

theorem parsing_load {i : Input} (h : Parsing i) {bs : Bytes}
    (hroom : i.last + bs.length ≤ MAX_BUF - 1) : Parsing (i.load bs) := by
  refine ⟨⟨h.pos.trans (Nat.le_add_right _ _), hroom⟩, fun hph => ?_, h.done, fun hph => ?_⟩
  · have hline := h.line hph
    exact atLine_congr hline fun ⟨hrs, hme, hus, hue, hre, hl, hh⟩ =>
      ⟨hrs, hme, hus, hue, hre, hl, hh⟩
  · exact atHeader_congr (h.header hph) rfl rfl rfl rfl

theorem parsing_emptied {i : Input} (h : Parsing i) : Parsing { i with list := [] } := by
  refine ⟨⟨h.pos, h.last⟩, fun hph => ?_, fun hph => ⟨(h.done hph).1, nil_within rfl⟩, fun hph => ?_⟩
  · exact atLine_congr (h.line hph) fun ⟨hrs, hme, hus, hue, hre, _, hh⟩ =>
      ⟨hrs, hme, hus, hue, hre, rfl, hh⟩
  · exact atHeader_congr (h.header hph) rfl rfl rfl rfl

theorem parsing_nextRequest {i : Input} (h : Parsing i) (hl : i.list = []) :
    Parsing i.nextRequest := by
  have hw := window_nextRequest h.toWindow
  have hlist : i.nextRequest.list = [] := by
    unfold Input.nextRequest
    dsimp only
    split <;> exact hl
  refine ⟨hw, fun _ => ⟨none, ⟨rfl, rfl, rfl, rfl, rfl, hlist, rfl⟩, (fun _ hx => by cases hx)⟩,
    fun hx => absurd rfl hx, fun hx => by cases hx⟩

theorem closeConn_inp (reaped : Bool) (c : Conn) :
    (zvHttpCloseConn reaped c).r.inp = { c.r.inp with list := [] } := rfl

theorem parsing_closeConn {c : Conn} (h : Parsing c.r.inp) (reaped : Bool) :
    Parsing (zvHttpCloseConn reaped c).r.inp := by
  rw [closeConn_inp]
  exact parsing_emptied h

theorem parsing_closeLabel {c : Conn} (h : Parsing c.r.inp) (reaped : Bool) :
    Parsing (c.closeLabel reaped).r.inp := parsing_closeConn (c := c.reset) h reaped

theorem parsing_requestDone {e : PassEnv} {keepAlive : Bool} {c : Conn} (h : Parsing c.r.inp)
    (hl : c.r.inp.list = []) : Parsing (requestDone e keepAlive c).1.r.inp := by
  have hnext := parsing_nextRequest h hl
  unfold requestDone
  split
  · exact parsing_closeLabel h _
  · dsimp only
    split
    · exact hnext
    · split
      · exact parsing_closeLabel (c := { c with r := { c.r with inp := c.r.inp.nextRequest } }) hnext _
      · exact hnext

theorem guardedDone_eq (g : GuardBranch) {e : PassEnv} {keepAlive : Bool} {c : Conn}
    (h : Parsing c.r.inp) (hl : c.r.inp.list = []) :
    guardedDone g e keepAlive c = requestDone e keepAlive c := by
  unfold guardedDone
  rw [if_neg (Nat.not_lt.mpr h.pos), if_neg (not_not.mpr hl)]

/-- A step of the static branch keeps the parser fields in order, and its guards hold. -/
structure Guarded (x y : Conn × PassExit) : Prop where
  same : x = y
  parsing : Parsing y.1.r.inp

theorem guardedSend_ok (g : GuardBranch) {e : PassEnv} {keepAlive : Bool} {c : Conn}
    (h : Parsing c.r.inp) (hl : c.r.inp.list = []) :
    Guarded (guardedSend g e keepAlive c) (sendAndFinish e keepAlive c) := by
  unfold guardedSend sendAndFinish
  cases hs : c.trySend e.send with
  | mk c₂ rc =>
    obtain ⟨_, _, _, _, -, rfl⟩ := trySend_frame hs
    cases rc with
    | fail => exact ⟨rfl, parsing_closeLabel (c := { c with r := _, tr := _ }) h _⟩
    | again => exact ⟨guardedDone_eq g h hl, parsing_requestDone h hl⟩
    | done => exact ⟨guardedDone_eq g h hl, parsing_requestDone h hl⟩
    | inCall => exact ⟨rfl, h⟩

theorem guardedPage_ok (g : GuardBranch) {e : PassEnv} {page : ErrorPage} {keepAlive : Bool}
    {c : Conn} (h : Parsing c.r.inp) (hl : c.r.inp.list = []) :
    Guarded (guardedPage g e page keepAlive c) (replyPage e page keepAlive c) := by
  have hin : (c.prepareError e.malloc page keepAlive).1.r.inp = c.r.inp := rfl
  unfold guardedPage replyPage
  generalize c.prepareError e.malloc page keepAlive = res at hin
  obtain ⟨c₁, ok⟩ := res
  dsimp only at hin
  cases ok with
  | false => exact ⟨rfl, parsing_closeLabel (hin ▸ h) _⟩
  | true => exact guardedSend_ok g (hin ▸ h) (hin ▸ hl)

theorem guardedFile_ok (g : GuardBranch) (lib : Libc) {e : PassEnv} {file : Bytes} {c : Conn}
    (h : Parsing c.r.inp) : Guarded (guardedFile g lib e file c) (serveFile lib e file c) := by
  unfold guardedFile serveFile
  dsimp only
  generalize zvHttpHandleHeader lib e.tmIsdst c.r.inp _ = out
  generalize hc : Conn.emit { c with r := { c.r with inp := { c.r.inp with list := [] } } } _ = c₀
  have h₀ : Parsing c₀.r.inp := by
    rw [← hc]
    exact parsing_emptied h
  have hl₀ : c₀.r.inp.list = [] := by
    rw [← hc]
    rfl
  cases e.stat with
  | none => exact guardedPage_ok g h₀ hl₀
  | some sb =>
    dsimp only
    by_cases hroot : isPathUnderRootReal e.realpath c₀.r.root file = false
    · rw [if_pos hroot, if_pos hroot]
      exact guardedPage_ok g h₀ hl₀
    · rw [if_neg hroot, if_neg hroot]
      by_cases hread : sb.isReg = false ∨ sb.userRead = false
      · rw [if_pos hread, if_pos hread]
        exact guardedPage_ok g h₀ hl₀
      · rw [if_neg hread, if_neg hread]
        generalize ({ out with mtime := _, status := _ } : HttpOut) = out'
        have hin : (c₀.prepareStatic lib e.openAns file sb.size out').1.r.inp = c₀.r.inp := rfl
        generalize c₀.prepareStatic lib e.openAns file sb.size out' = res at hin
        obtain ⟨c₁, ok⟩ := res
        dsimp only at hin
        cases ok with
        | false => exact ⟨rfl, parsing_closeLabel (hin ▸ h₀) _⟩
        | true => exact guardedSend_ok g (hin ▸ h₀) (hin ▸ hl₀)

theorem replyAndClose_inp (e : PassEnv) (page : ErrorPage) (c : Conn) :
    (replyAndClose e page c).1.r.inp = c.r.inp := by
  have hin : (c.prepareError e.malloc page false).1.r.inp = c.r.inp := rfl
  unfold replyAndClose
  generalize c.prepareError e.malloc page false = res at hin
  obtain ⟨c₁, ok⟩ := res
  cases ok with
  | false => exact hin
  | true =>
    have hin' : (c₁.trySend e.send).1.r.inp = c.r.inp := hin
    dsimp only
    generalize c₁.trySend e.send = res at hin'
    obtain ⟨c₂, rc⟩ := res
    cases rc <;> exact hin'

theorem zvCgiStart_inp (e : CgiStartEnv) (file name : Bytes) (query : Option Bytes) (c : Conn) :
    (zvCgiStart e file name query c).1.r.inp = c.r.inp := by
  rcases zvCgiStart_cases e file name query c with
    ⟨calls, -, heq⟩ | ⟨_, _, _, _, _, -, -, -, heq⟩
  · rw [heq]
    rfl
  · rw [heq]

theorem startScript_inp (e : PassEnv) (file : Bytes) (c : Conn) :
    (startScript e file c).1.r.inp = c.r.inp := by
  unfold startScript
  dsimp only
  split
  · exact replyAndClose_inp e _ _
  · split
    · exact replyAndClose_inp e _ _
    · split
      · exact replyAndClose_inp e _ _
      · next sb _ _ _ =>
        have hin := zvCgiStart_inp e.start file
          (uriPath (c.r.inp.span c.r.inp.uriStart c.r.inp.uriEnd))
          (cgiQueryString (c.r.inp.span c.r.inp.uriStart c.r.inp.uriEnd)) (c.emit [.stat file])
        generalize zvCgiStart e.start file _ _ (c.emit [.stat file]) = res at hin
        obtain ⟨c₁, ok⟩ := res
        cases ok with
        | true => exact hin
        | false => exact (replyAndClose_inp e _ c₁).trans hin

theorem handleCgiMvp_parsing {c : Conn} (h : Parsing c.r.inp) (e : PassEnv) :
    Parsing (handleCgiMvp e c).1.r.inp := by
  unfold handleCgiMvp
  split
  · exact h
  · dsimp only
    split
    · exact h
    · split
      · rw [replyAndClose_inp]
        exact h
      · split
        · rw [replyAndClose_inp]
          exact parsing_emptied h
        · rw [startScript_inp]
          exact parsing_emptied h

theorem replyInvalidUri_parsing {c : Conn} (h : Parsing c.r.inp) (e : PassEnv) :
    Parsing (replyInvalidUri e c).1.r.inp := by
  unfold replyInvalidUri
  generalize hres : replyAndClose e _ c = res
  have hin : res.1.r.inp = c.r.inp := by
    rw [← hres]
    exact replyAndClose_inp e _ c
  obtain ⟨c₁, rc⟩ := res
  have h₁ : Parsing c₁.r.inp := hin ▸ h
  cases rc with
  | returned => exact h₁
  | close => exact parsing_closeLabel (c := c₁.reset) h₁ _
  | inCall => exact h₁
  | not => exact parsing_closeLabel h₁ _
  | error => exact parsing_closeLabel h₁ _

theorem guardedAnswer_ok (g : GuardBranch) (lib : Libc) {e : PassEnv} {c : Conn}
    (h : Parsing c.r.inp) : Guarded (guardedAnswer g lib e c) (answer lib e c) := by
  have hcgi : Parsing (handleCgiMvp e (c.emit [.serve c.r.inp.served c.r.inp.method])).1.r.inp :=
    handleCgiMvp_parsing (c := c.emit _) h e
  unfold guardedAnswer answer
  dsimp only
  generalize handleCgiMvp e (c.emit [.serve c.r.inp.served c.r.inp.method]) = res at hcgi
  obtain ⟨c₁, rc⟩ := res
  cases rc with
  | error => exact ⟨rfl, parsing_closeLabel hcgi _⟩
  | returned => exact ⟨rfl, hcgi⟩
  | close => exact ⟨rfl, parsing_closeLabel hcgi _⟩
  | inCall => exact ⟨rfl, hcgi⟩
  | not =>
    dsimp only
    cases parseUri c₁.r.root (c₁.r.inp.span c₁.r.inp.uriStart c₁.r.inp.uriEnd) SHORTLINE with
    | none => exact ⟨rfl, replyInvalidUri_parsing hcgi e⟩
    | some file => exact guardedFile_ok g lib hcgi

/-- The end of a pass: the parser fields are in order, but for those of a request that was
refused. The connection is closed then, or the loop goes on. -/
structure PassLeaves (x : Conn × PassExit) : Prop where
  receiving : Receiving x.1.r.inp
  parsing : x.1.isOpen = true → Parsing x.1.r.inp ∨ x.2 = .next ∧ Refused x.1.r.inp

theorem passLeaves_of {x : Conn × PassExit} (h : Parsing x.1.r.inp) : PassLeaves x :=
  ⟨parsing_receiving h, fun _ => .inl h⟩

theorem receiving_emptied {i : Input} (h : Receiving i) : Receiving { i with list := [] } :=
  ⟨⟨h.pos, h.last⟩, h.sorted, h.marks, fun _ hmem => absurd hmem List.not_mem_nil⟩

theorem no_wrap {n : Nat} (h : n ≤ MAX_BUF - 1) :
    (List.range n).any (fun pi => pi % MAX_BUF ≠ pi) = false := by
  rw [List.any_eq_false]
  intro pi hpi
  have hlt : pi < MAX_BUF := by
    have hpos : 0 < MAX_BUF := by decide
    have := List.mem_range.mp hpi
    omega
  simp [Nat.mod_eq_of_lt hlt]

theorem guardedParse_ok (g : GuardBranch) (lib : Libc) {e : PassEnv} {c : Conn}
    (h : Parsing c.r.inp) :
    guardedParse g lib e c = parseAndAnswer lib e c ∧ PassLeaves (parseAndAnswer lib e c) := by
  obtain ⟨j, rc, hp⟩ : ∃ j rc, parsePhases c.r.inp = (j, rc) := ⟨_, _, rfl⟩
  obtain ⟨hrec, hpar⟩ := parsePhases_receiving h hp
  unfold guardedParse parseAndAnswer
  rw [no_wrap h.last, hp, if_neg Bool.false_ne_true]
  dsimp only
  rw [if_neg (not_not.mpr hrec)]
  cases rc with
  | again => exact ⟨rfl, passLeaves_of (hpar (.inl rfl))⟩
  | ok =>
    have hans := guardedAnswer_ok g lib (e := e) (c := { c with r := { c.r with inp := j } })
      (hpar (.inr rfl))
    exact ⟨hans.same, passLeaves_of hans.parsing⟩
  | invalidRequest =>
    obtain ⟨hs, rfl⟩ := stuck_of_refused hp
    exact ⟨rfl, hrec, fun _ => .inr ⟨rfl, refused_of_stuck h hs⟩⟩
  | _ => exact ⟨rfl, receiving_emptied hrec, fun hx => by cases hx⟩

theorem guardedPass_ok (g : GuardBranch) (lib : Libc) (e : PassEnv) {c : Conn}
    (h : Parsing c.r.inp) :
    guardedPass g lib e c = requestPass lib e c ∧ PassLeaves (requestPass lib e c) := by
  unfold guardedPass requestPass
  by_cases hpos : c.r.inp.parsePos ≥ c.r.inp.last
  · rw [if_pos hpos, if_pos hpos]
    have hclose : PassLeaves (c.closeLabel e.reaped, .closed) :=
      passLeaves_of (parsing_closeLabel h e.reaped)
    by_cases hfull : c.r.inp.last ≥ MAX_BUF - 1
    · rw [if_pos hfull, if_pos hfull]
      exact ⟨rfl, hclose⟩
    · rw [if_neg hfull, if_neg hfull, if_neg (by omega), if_neg (by omega)]
      cases e.read with
      | ok bs =>
        dsimp only
        by_cases hnil : bs.take (MAX_BUF - c.r.inp.last - 1) = []
        · have hend : bs = [] := by
            rcases List.take_eq_nil_iff.mp hnil with hroom | hbs
            · omega
            · exact hbs
          rw [if_pos hnil, if_pos hnil, if_neg (not_not.mpr hend)]
          exact ⟨rfl, hclose⟩
        · rw [if_neg hnil, if_neg hnil]
          have hroom : c.r.inp.last + (bs.take (MAX_BUF - c.r.inp.last - 1)).length ≤
              MAX_BUF - 1 := by
            have := List.length_take_le (MAX_BUF - c.r.inp.last - 1) bs
            omega
          have hlast : (c.r.inp.load (bs.take (MAX_BUF - c.r.inp.last - 1))).last < MAX_BUF := by
            show c.r.inp.last + (bs.take (MAX_BUF - c.r.inp.last - 1)).length < MAX_BUF
            omega
          rw [if_neg (not_not.mpr hlast)]
          exact guardedParse_ok g lib (parsing_load h hroom)
      | eintr => exact ⟨rfl, hclose⟩
      | eagain => exact ⟨rfl, passLeaves_of h⟩
      | error => exact ⟨rfl, hclose⟩
  · rw [if_neg hpos, if_neg hpos]
    exact guardedParse_ok g lib h

theorem guardedPass_refused (g : GuardBranch) (lib : Libc) (e : PassEnv) {c : Conn}
    (h : Refused c.r.inp) : guardedPass g lib e c = requestPass lib e c := by
  have hs := refused_stuck h
  have hnext : Receiving (zvHttpParseRequestLine c.r.inp).1 := refused_receiving (refused_again h)
  rw [requestPass_stuck lib e hs]
  unfold guardedPass
  rw [if_neg (Nat.not_le.mpr hs.unparsed)]
  unfold guardedParse
  rw [no_wrap (refused_receiving h).last, hs.parse, if_neg Bool.false_ne_true]
  dsimp only
  rw [if_neg (not_not.mpr hnext)]
  rfl

/-- The connection at the head of the loop of `do_request`, with its parser fields in order. -/
def LoopParsing (c : Conn) : Prop := AtLoop c ∧ Parsing c.r.inp

/-- The connection at the head of the loop of `do_request`, with its parser fields in order or as
a refused request line left them. -/
def LoopFields (c : Conn) : Prop := AtLoop c ∧ (Parsing c.r.inp ∨ Refused c.r.inp)

theorem loopParsing_next {lib : Libc} {e : PassEnv} {c c' : Conn} (h : LoopParsing c)
    (hp : requestPass lib e c = (c', .next)) : LoopFields c' := by
  have hok := requestPass_ok lib e h.1
  have hleaves := (guardedPass_ok (fun _ c => (c, .next)) lib e h.2).2
  rw [hp] at hok hleaves
  have hloop := hok.next rfl
  exact ⟨hloop, (hleaves.parsing hloop.isOpen).imp_right And.right⟩

theorem loopParsing_free {lib : Libc} {e : PassEnv} {c c' : Conn} (h : LoopParsing c)
    (hfree : ¬ Stuck c'.r.inp) (hp : requestPass lib e c = (c', .next)) : LoopParsing c' := by
  obtain ⟨hloop, hfields⟩ := loopParsing_next h hp
  exact ⟨hloop, hfields.resolve_right fun hr => hfree (refused_stuck hr)⟩

theorem loopFields_next {lib : Libc} {e : PassEnv} {c c' : Conn} (h : LoopFields c)
    (hp : requestPass lib e c = (c', .next)) : LoopFields c' := by
  rcases h.2 with hpar | hr
  · exact loopParsing_next ⟨h.1, hpar⟩ hp
  · have hok := requestPass_ok lib e h.1
    rw [requestPass_stuck lib e (refused_stuck hr)] at hp hok
    obtain rfl := (Prod.mk.inj hp).1
    exact ⟨hok.next rfl, .inr (refused_again hr)⟩

theorem passes_fields {lib : Libc} {c c₁ : Conn} {es : List PassEnv} (h : LoopFields c)
    (hp : passes lib c es = some c₁) : LoopFields c₁ := by
  induction es generalizing c with
  | nil =>
    obtain rfl := Option.some.inj hp
    exact h
  | cons e es ih =>
    unfold passes at hp
    split at hp
    · next c₂ heq => exact ih (loopFields_next h heq) hp
    · cases hp

/-- What a connection keeps between two callbacks. -/
structure Buffered (c : Conn) : Prop where
  receiving : Receiving c.r.inp
  parsing : c.isOpen = true → Parsing c.r.inp

theorem buffered_of {c : Conn} (h : Parsing c.r.inp) : Buffered c :=
  ⟨parsing_receiving h, fun _ => h⟩

theorem buffered_inp {c c' : Conn} (h : Buffered c) (hopen : c.isOpen = true)
    (hin : c'.r.inp = c.r.inp ∨ c'.r.inp = { c.r.inp with list := [] }) : Buffered c' := by
  refine buffered_of ?_
  rcases hin with hin | hin
  · rw [hin]
    exact h.parsing hopen
  · rw [hin]
    exact parsing_emptied (h.parsing hopen)

theorem doRequest_buffered {lib : Libc} {es : List PassEnv} {c c' : Conn} (h : LoopParsing c.delTimer)
    (hd : doRequest lib es c = (c', true)) : Buffered c' := by
  obtain ⟨c₁, e, c₂, x, h₁, hpass, hend⟩ :=
    requestLoop_cases (fun _ _ _ h hfree hp => loopParsing_free h hfree hp) h hd
  have hleaves := (guardedPass_ok (fun _ c => (c, .next)) lib e h₁.2).2
  have hok := requestPass_ok lib e h₁.1
  rw [hpass] at hleaves hok
  have hpar (hx : x ≠ .next) (hopen : c₂.isOpen = true) : Parsing c₂.r.inp :=
    (hleaves.parsing hopen).resolve_right fun hr => hx hr.1
  rcases hend with ⟨rfl, ms, rfl⟩ | ⟨hx, rfl⟩
  · exact buffered_of (c := (c₂.rearmEvent .epollin).addTimer ms)
      (hpar (fun hx => by cases hx) (hok.idle rfl).1.isOpen)
  · refine ⟨hleaves.receiving, hpar ?_⟩
    rcases hx with rfl | rfl
    · exact fun hx => by cases hx
    · exact fun hx => by cases hx

/-- `do_write` and the CGI callbacks only ever empty the header list. -/
theorem doWrite_inp (e : WriteEnv) (c : Conn) :
    (doWrite e c).1.r.inp = c.r.inp ∨ (doWrite e c).1.r.inp = { c.r.inp with list := [] } := by
  unfold doWrite
  dsimp only
  split
  · unfold writeCgi
    have hin : (zvCgiOnClientWritable e.cgi e.reapedWrite c.delTimer).1.r.inp = c.r.inp := by
      unfold zvCgiOnClientWritable
      split
      · rfl
      · dsimp only
        split
        · rfl
        · split <;> rfl
        · rfl
    generalize zvCgiOnClientWritable e.cgi e.reapedWrite c.delTimer = res at hin
    obtain ⟨c₁, rc⟩ := res
    dsimp only at hin
    cases rc with
    | wouldBlock => exact .inl hin
    | needMore => exact .inl hin
    | inCall => exact .inl hin
    | finished => exact .inr (hin ▸ closeConn_inp _ c₁)
    | error => exact .inr (hin ▸ closeConn_inp _ c₁)
  · unfold writeStatic
    have hin : (c.delTimer.trySend e.send).1.r.inp = c.r.inp := rfl
    generalize c.delTimer.trySend e.send = res at hin
    obtain ⟨c₁, rc⟩ := res
    dsimp only at hin
    cases rc with
    | again => exact .inl hin
    | inCall => exact .inl hin
    | fail => exact .inr (hin ▸ closeConn_inp _ c₁.reset)
    | done =>
      dsimp only
      split
      · exact .inr (hin ▸ closeConn_inp _ c₁.reset)
      · exact .inl hin

theorem stdoutReady_inp (answers : List (Ans Bytes)) (reaped : Bool) (c : Conn) :
    (zvCgiOnStdoutReady answers reaped c).1.r.inp = c.r.inp ∨
      (zvCgiOnStdoutReady answers reaped c).1.r.inp = { c.r.inp with list := [] } := by
  unfold zvCgiOnStdoutReady
  split
  · exact .inl rfl
  · dsimp only
    generalize hc₁ : (if (readerLoop c.delTimer.r.cgi answers).1.outFd = none then _ else _ : Conn) = c₁
    have hin : c₁.r.inp = c.r.inp := by
      rw [← hc₁]
      split <;> rfl
    split
    · exact .inl hin
    · split <;> exact .inl hin
    · exact .inr (hin ▸ closeConn_inp _ c₁)
    · exact .inl hin

theorem fired_open {c : Conn} {ev : Interest} (h : Phase c)
    (hf : c.sock = .fired ev ∨ c.pipe = .fired ev) : c.isOpen = true := by
  cases h with
  | reading hopen | writing hopen | cgiReading hopen | cgiWriting hopen => exact hopen
  | closed hopen hsock hpipe =>
    rcases hf with hf | hf
    · cases hf.symm.trans hsock
    · cases hf.symm.trans hpipe

theorem phase_loopParsing {c : Conn} (h : Phase c) (hb : Buffered c)
    (hf : c.sock = .fired .epollin) : LoopParsing { c with sock := .off }.delTimer :=
  ⟨phase_loop h hf, hb.parsing (fired_open h (.inl hf))⟩

theorem connStep_buffered {lib : Libc} {c c' : Conn} {a : ConnAct} (h : Phase c ∧ Buffered c)
    (hstep : connStep lib c a = some c') : Phase c' ∧ Buffered c' := by
  refine ⟨connStep_phase h.1 hstep, ?_⟩
  cases connStep_cases hstep with
  | takeSocket g hg => exact ⟨h.2.receiving, h.2.parsing⟩
  | takePipe g hg => exact ⟨h.2.receiving, h.2.parsing⟩
  | request es _ hf hd => exact doRequest_buffered (phase_loopParsing h.1 h.2 hf) hd
  | write e _ hf hd =>
    have hin := doWrite_inp e { c with sock := .off }
    rw [hd] at hin
    exact buffered_inp h.2 (fired_open h.1 (.inl hf)) hin
  | stdout answers reaped _ hf hd =>
    have hin := stdoutReady_inp answers reaped { c with pipe := .off }
    rw [hd] at hin
    exact buffered_inp h.2 (fired_open h.1 (.inr hf)) hin
  | hangup ev reaped hf =>
    exact buffered_inp h.2 (fired_open h.1 (.inl hf)) (.inr (closeConn_inp reaped c.delTimer))
  | expire reaped hopen => exact buffered_inp h.2 hopen (.inr (closeConn_inp reaped c))

theorem parsing_accept (old : Request) (fd : Fd) (cf : Conf) :
    Parsing (acceptConn old fd cf).r.inp :=
  ⟨⟨Nat.le_refl 0, Nat.zero_le _⟩,
    fun _ => ⟨none, ⟨rfl, rfl, rfl, rfl, rfl, rfl, rfl⟩, (fun _ hx => by cases hx)⟩,
    fun hx => absurd rfl hx, (fun hx => by cases hx)⟩

end ReceiveBufferLemmas

open ReceiveBufferLemmas

/-! ## Every state -/

/-- In every state that a connection reaches, between two callbacks and at every turn of the
loop of `do_request`, also after a request line was refused, the window lies in the buffer and
all pointers are to received bytes, before the pass and behind it; and no guard of the pass
ever fails. -/
theorem receive_buffer {lib : Libc} {c : Conn} (h : Reached lib c) :
    Receiving c.r.inp ∧
      (c.sock = .fired .epollin → ∀ es c₁,
        passes lib { c with sock := .off }.delTimer es = some c₁ →
        Receiving c₁.r.inp ∧ ∀ e, Receiving (requestPass lib e c₁).1.r.inp ∧
          ∀ g, guardedPass g lib e c₁ = requestPass lib e c₁) := by
  obtain ⟨old, fd, cf, acts, hrun⟩ := h
  have hinv : Phase c ∧ Buffered c :=
    run_invariant (fun _ _ _ => connStep_buffered)
      ⟨phase_accept old fd cf, buffered_of (parsing_accept old fd cf)⟩ hrun
  refine ⟨hinv.2.receiving, fun hf es c₁ hp => ?_⟩
  have hfirst := phase_loopParsing hinv.1 hinv.2 hf
  rcases (passes_fields ⟨hfirst.1, .inl hfirst.2⟩ hp).2 with hpar | hr
  · refine ⟨parsing_receiving hpar, fun e => ⟨?_, fun g => (guardedPass_ok g lib e hpar).1⟩⟩
    exact (guardedPass_ok (fun _ c => (c, .next)) lib e hpar).2.receiving
  · refine ⟨refused_receiving hr, fun e => ⟨?_, fun g => guardedPass_refused g lib e hr⟩⟩
    rw [requestPass_stuck lib e (refused_stuck hr)]
    exact refused_receiving (refused_again hr)

/-- A request with a header, and the begin of the next one in the same read. -/
def pipelinedPass : PassEnv :=
  { missingPass with read := .ok (ascii "GET /a HTTP/1.1\r\nHost: b\r\n\r\nGET /") }

theorem receive_buffer_pipelined : ∃ c₁,
    passes sampleLib { missingConn with sock := .off }.delTimer [pipelinedPass] = some c₁ ∧
      c₁.r.inp.last = 5 ∧ Receiving c₁.r.inp ∧
      ∀ e g, guardedPass g sampleLib e c₁ = requestPass sampleLib e c₁ := by
  have hsome : (passes sampleLib { missingConn with sock := .off }.delTimer [pipelinedPass]).map
      (fun c => c.r.inp.last) = some 5 := by decide +kernel
  obtain ⟨c₁, hc₁, hlast⟩ := Option.map_eq_some_iff.mp hsome
  have hr : Reached sampleLib missingConn := ⟨Request.zero, 7, _, [.takeSocket], rfl⟩
  obtain ⟨hrec, hpass⟩ := (receive_buffer hr).2 rfl [pipelinedPass] c₁ hc₁
  exact ⟨c₁, hc₁, hlast, hrec, fun e g => (hpass e).2 g⟩

end Zaver
