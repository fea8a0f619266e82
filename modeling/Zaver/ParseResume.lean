import Zaver.HttpParse

/-!
# Resuming the parser

The parser of a request is called again whenever more bytes have arrived. A call that
returned `ZV_AGAIN` and a later one with more bytes together do what one call does on all
of them (`parsePhases_resume`), and what a call has decided does not change when bytes
follow (`parsePhases_extend`). `feed` calls the parser after each piece of a stream, and
`feed_eq` says that the pieces do not matter.
-/

namespace Zaver

open Scan

/-! ## Loading and feeding -/

/-- `read(fd, buf + last, ...)` returned the bytes `bs`. -/
def Input.load (i : Input) (bs : Bytes) : Input :=
  { i with buf := i.buf.write i.last bs, last := i.last + bs.length }

/-- The parser is called after each piece, until it returns something other than
`ZV_AGAIN`. -/
def feed (i : Input) : List Bytes → Input × ParseRc
  | [] => (i, .again)
  | p :: ps =>
    match parsePhases (i.load p) with
    | (i, .again) => feed i ps
    | res => res

/-- Two results of the parser that a caller cannot tell apart: after an error the block is
not parsed any further. -/
def SameResult (x y : Input × ParseRc) : Prop :=
  x.2 = y.2 ∧ (x.2 = .ok ∨ x.2 = .again → x.1 = y.1)

namespace ParseResumeLemmas

theorem SameResult.refl (x : Input × ParseRc) : SameResult x x := ⟨rfl, fun _ => rfl⟩

theorem SameResult.trans {x y z : Input × ParseRc} (h : SameResult x y) (h' : SameResult y z) :
    SameResult x z := by
  refine ⟨h.1.trans h'.1, fun hx => (h.2 hx).trans (h'.2 ?_)⟩
  rw [← h.1]
  exact hx

/-! ### Fields that no byte changes -/

/-- The receive window and the phase. -/
def frameOf (i : Input) : Mem UInt8 × Nat × ParsePhase := (i.buf, i.last, i.parsePhase)

/-- The method that `setMethod` stores, and `old` when it stores none. -/
def methodOf (buf : Mem UInt8) (m p : Nat) (old : Method) : Method :=
  if p - m = 3 then if buf.slice m (m + 4) = ascii "GET " then .get else old
  else if p - m = 4 then
    if buf.slice m (m + 4) = ascii "POST" then .post
    else if buf.slice m (m + 4) = ascii "HEAD" then .head
    else old
  else .unknown

theorem setMethod_eq (i : Input) (m p : Nat) :
    setMethod i m p = { i with method := methodOf i.buf m p i.method } := by
  unfold setMethod methodOf
  split
  · split
    · rfl
    · rfl
  split
  · split
    · rfl
    split
    · rfl
    · rfl
  · rfl

theorem lineByte_frame (i : Input) (state : LineState) (p : Nat) (ch : UInt8) :
    frameOf (lineByte i state p ch).record = frameOf i := by
  cases state <;> unfold lineByte <;> dsimp only <;> split_ifs <;>
    first
    | rfl
    | rw [setMethod_eq]; rfl

theorem headerByte_frame (i : Input) (state : HeaderState) (p : Nat) (ch : UInt8) :
    frameOf (headerByte i state p ch).record = frameOf i := by
  cases state <;> unfold headerByte <;> dsimp only <;> split_ifs <;> rfl

/-! ### Bytes behind the window -/

/-- Bytes written at offset `n`. -/
def extend (n : Nat) (bs : Bytes) (i : Input) : Input :=
  { i with buf := i.buf.write n bs, last := i.last + bs.length }

theorem methodOf_extend (n : Nat) (bs : Bytes) (buf : Mem UInt8) {m p : Nat} (hp : p < n)
    (old : Method) : methodOf (buf.write n bs) m p old = methodOf buf m p old := by
  have hslice : p - m = 3 ∨ p - m = 4 → (buf.write n bs).slice m (m + 4) = buf.slice m (m + 4) :=
    fun h => Mem.slice_write_before buf bs (by omega)
  unfold methodOf
  split
  · next h3 => rw [hslice (Or.inl h3)]
  split
  · next h4 => rw [hslice (Or.inr h4)]
  · rfl

theorem lineByte_extend (n : Nat) (bs : Bytes) (i : Input) (state : LineState) (p : Nat)
    (ch : UInt8) (hp : p < n) :
    lineByte (extend n bs i) state p ch = (lineByte i state p ch).map (extend n bs) := by
  cases state <;> unfold lineByte <;> dsimp only <;> split_ifs <;>
    first
    | rfl
    | rw [setMethod_eq, setMethod_eq]; exact congrArg
        (fun m => Step.next { extend n bs i with methodEnd := some p, method := m } _)
        (methodOf_extend n bs i.buf hp i.method)

theorem headerByte_extend (n : Nat) (bs : Bytes) (i : Input) (state : HeaderState) (p : Nat)
    (ch : UInt8) :
    headerByte (extend n bs i) state p ch = (headerByte i state p ch).map (extend n bs) := by
  cases state <;> unfold headerByte <;> dsimp only <;> split_ifs <;> rfl

/-! ### Fields that are stored at the end of a call -/

/-- The position and the state of the request line replaced. -/
def restateLine (pos : Nat) (state : LineState) (i : Input) : Input :=
  { i with parsePos := pos, requestLineState := state }

/-- The position and the state of the headers replaced. -/
def restateHeader (pos : Nat) (state : HeaderState) (i : Input) : Input :=
  { i with parsePos := pos, headerState := state }

theorem lineByte_restate (pos : Nat) (ls : LineState) (i : Input) (state : LineState) (p : Nat)
    (ch : UInt8) :
    lineByte (restateLine pos ls i) state p ch = (lineByte i state p ch).map (restateLine pos ls) := by
  cases state <;> unfold lineByte <;> dsimp only <;> split_ifs <;>
    first
    | rfl
    | rw [setMethod_eq, setMethod_eq]; rfl

theorem headerByte_restate (pos : Nat) (hs : HeaderState) (i : Input) (state : HeaderState)
    (p : Nat) (ch : UInt8) :
    headerByte (restateHeader pos hs i) state p ch =
      (headerByte i state p ch).map (restateHeader pos hs) := by
  cases state <;> unfold headerByte <;> dsimp only <;> split_ifs <;> rfl

/-- An error of the parser is neither `ZV_OK` nor `ZV_AGAIN`. -/
theorem lineByte_fail {i j : Input} {state : LineState} {p : Nat} {ch : UInt8} {rc : ParseRc}
    (h : lineByte i state p ch = .fail j rc) : rc ≠ .ok ∧ rc ≠ .again := by
  cases state <;> unfold lineByte at h <;> dsimp only at h <;> split_ifs at h <;>
    cases h <;> exact ⟨(fun hx => by cases hx), (fun hx => by cases hx)⟩

theorem headerByte_fail {i j : Input} {state : HeaderState} {p : Nat} {ch : UInt8} {rc : ParseRc}
    (h : headerByte i state p ch = .fail j rc) : rc ≠ .ok ∧ rc ≠ .again := by
  cases state <;> unfold headerByte at h <;> dsimp only at h <;> split_ifs at h <;>
    cases h <;> exact ⟨(fun hx => by cases hx), (fun hx => by cases hx)⟩

/-! ### The window -/

theorem window_eq {i : Input} (h : i.last ≤ MAX_BUF) : i.window = i.buf.slice i.parsePos i.last := by
  unfold Input.window Mem.slice
  refine List.map_congr_left fun p hp => ?_
  rw [List.mem_range'_1] at hp
  rw [Nat.mod_eq_of_lt (by omega)]

theorem window_load {i : Input} (hpos : i.parsePos ≤ i.last) {bs : Bytes}
    (h : i.last + bs.length ≤ MAX_BUF) : (i.load bs).window = i.window ++ bs := by
  rw [window_eq (show (i.load bs).last ≤ MAX_BUF from h), window_eq (by omega)]
  exact Mem.slice_write_append i.buf bs hpos

theorem length_window (i : Input) : i.window.length = i.last - i.parsePos := by
  simp [Input.window]

/-- The window after all of it was parsed and more bytes arrived. -/
theorem window_load_parsed {i : Input} (hpos : i.parsePos = i.last) {bs : Bytes}
    (h : i.last + bs.length ≤ MAX_BUF) : (i.load bs).window = bs := by
  rw [window_load (by omega) h, window_eq (by omega), hpos, Mem.slice_self, List.nil_append]

/-! ### Calls of the two parsers -/

theorem load_eq_extend {i j : Input} (h : frameOf j = frameOf i) (bs : Bytes) :
    j.load bs = extend i.last bs j := by
  have hlast : j.last = i.last := congrArg (fun x => x.2.1) h
  unfold Input.load extend
  rw [hlast]

/-- A parser that keeps its position and its state in the request block. -/
structure Parser (σ : Type) where
  step : Input → σ → Nat → UInt8 → ByteStep σ
  state : Input → σ
  restate : Nat → σ → Input → Input
  accept : Nat → Input → Input
  step_frame : ∀ i st p ch, frameOf (step i st p ch).record = frameOf i
  step_extend : ∀ n bs i st p ch, p < n →
    step (extend n bs i) st p ch = (step i st p ch).map (extend n bs)
  step_restate : ∀ pos st' i st p ch,
    step (restate pos st' i) st p ch = (step i st p ch).map (restate pos st')
  step_fail : ∀ i st p ch j rc, step i st p ch = .fail j rc → rc ≠ .ok ∧ rc ≠ .again
  state_extend : ∀ n bs i, state (extend n bs i) = state i
  state_restate : ∀ pos st i, state (restate pos st i) = st
  pos_restate : ∀ pos st i, (restate pos st i).parsePos = pos
  frame_restate : ∀ pos st i, frameOf (restate pos st i) = frameOf i
  extend_restate : ∀ n bs pos st i, extend n bs (restate pos st i) = restate pos st (extend n bs i)
  restate_restate : ∀ pos st pos' st' i, restate pos st (restate pos' st' i) = restate pos st i
  pos_accept : ∀ pos i, (accept pos i).parsePos = pos
  frame_accept : ∀ pos i, frameOf (accept pos i) = frameOf i
  extend_accept : ∀ n bs pos i, extend n bs (accept pos i) = accept pos (extend n bs i)
  accept_restate : ∀ pos pos' st i, accept pos (restate pos' st i) = accept pos i

namespace Parser

variable {σ : Type} (P : Parser σ)

/-- What a call stores at its end. -/
def finish : Outcome Input σ ParseRc → Input × ParseRc
  | .more i st p => (P.restate p st i, .again)
  | .done i p => (P.accept p i, .ok)
  | .fail i rc => (i, rc)

/-- One call. -/
def call (i : Input) : Input × ParseRc :=
  P.finish (scan P.step i (P.state i) i.parsePos i.window)

theorem finish_restate (pos : Nat) (st : σ) {r : Outcome Input σ ParseRc}
    (hr : ∀ i rc, r = .fail i rc → rc ≠ .ok ∧ rc ≠ .again) :
    SameResult (P.finish (r.map (P.restate pos st))) (P.finish r) := by
  cases r with
  | more i st' p => exact ⟨rfl, fun _ => P.restate_restate p st' pos st i⟩
  | done i p => exact ⟨rfl, fun _ => P.accept_restate p pos st i⟩
  | fail i rc =>
    obtain ⟨h1, h2⟩ := hr i rc rfl
    exact ⟨rfl, fun hx => (hx.elim h1 h2).elim⟩

/-- A call when bytes have been added behind the window. -/
theorem call_load {i : Input} (hpos : i.parsePos ≤ i.last) {bs : Bytes}
    (hlast : i.last + bs.length ≤ MAX_BUF) :
    P.call (i.load bs) =
      P.finish (((scan P.step i (P.state i) i.parsePos i.window).map (extend i.last bs)).andThen
        fun j st p => scan P.step j st p bs) := by
  have hw : i.parsePos + i.window.length = i.last := by
    rw [length_window]
    omega
  unfold call
  rw [window_load hpos hlast, scan_append]
  show P.finish ((scan P.step (extend i.last bs i) (P.state (extend i.last bs i)) i.parsePos
    i.window).andThen _) = _
  rw [P.state_extend, scan_map (extend i.last bs) i.last
    (fun j st p ch hp => P.step_extend i.last bs j st p ch hp) i _ _ _ (by omega)]

/-- A call changes neither the window nor the phase. -/
theorem call_frame (i : Input) : frameOf (P.call i).1 = frameOf i := by
  have hframe : frameOf (scan P.step i (P.state i) i.parsePos i.window).record = frameOf i :=
    scan_record (fun j st p ch hj => (P.step_frame j st p ch).trans hj) rfl _ _ _
  unfold call
  generalize scan P.step i (P.state i) i.parsePos i.window = r at hframe
  cases r with
  | more j st p => exact (P.frame_restate p st j).trans hframe
  | done j p => exact (P.frame_accept p j).trans hframe
  | fail j rc => exact hframe

/-- A call ends behind what it has read: all of the window when it wants more. -/
theorem call_pos {i : Input} (hpos : i.parsePos ≤ i.last) :
    ((P.call i).2 = .again → (P.call i).1.parsePos = i.last) ∧
      ((P.call i).2 = .ok → i.parsePos < (P.call i).1.parsePos ∧
        (P.call i).1.parsePos ≤ i.last) := by
  have hw : i.parsePos + i.window.length = i.last := by
    rw [length_window]
    omega
  have hend := scan_pos P.step i (P.state i) i.parsePos i.window
  unfold call
  cases hscan : scan P.step i (P.state i) i.parsePos i.window with
  | more j st p =>
    rw [hscan] at hend
    refine ⟨fun _ => ?_, fun hx => by cases hx⟩
    show (P.restate p st j).parsePos = i.last
    rw [P.pos_restate]
    exact hend.trans hw
  | done j p =>
    rw [hscan] at hend
    refine ⟨(fun hx => by cases hx), fun _ => ?_⟩
    show i.parsePos < (P.accept p j).parsePos ∧ (P.accept p j).parsePos ≤ i.last
    rw [P.pos_accept]
    exact ⟨hend.1, hend.2.trans hw.le⟩
  | fail j rc =>
    obtain ⟨h1, h2⟩ : rc ≠ .ok ∧ rc ≠ .again := scan_fail (P.step_fail) hscan
    exact ⟨fun hx => absurd hx h2, fun hx => absurd hx h1⟩

/-- A call that wants more, continued with more bytes. -/
theorem call_resume {i : Input} (hpos : i.parsePos ≤ i.last) {bs : Bytes}
    (hlast : i.last + bs.length ≤ MAX_BUF) (hmore : (P.call i).2 = .again) :
    SameResult (P.call ((P.call i).1.load bs)) (P.call (i.load bs)) := by
  have hframe := P.call_frame i
  have hend := (P.call_pos hpos).1 hmore
  have hl : (P.call i).1.last = i.last := congrArg (fun x => x.2.1) hframe
  have hwin : ((P.call i).1.load bs).window = bs :=
    window_load_parsed (hend.trans hl.symm) (by rw [hl]; exact hlast)
  rw [P.call_load hpos hlast]
  unfold call at hmore hwin hend hframe ⊢
  cases hscan : scan P.step i (P.state i) i.parsePos i.window with
  | more j st p =>
    rw [hscan] at hwin hend hframe
    have hload : (P.restate p st j).load bs = P.restate p st (extend i.last bs j) :=
      (load_eq_extend hframe bs).trans (P.extend_restate i.last bs p st j)
    have hwin' : ((P.restate p st j).load bs).window = bs := hwin
    show SameResult (P.finish (scan P.step ((P.restate p st j).load bs)
      (P.state ((P.restate p st j).load bs)) ((P.restate p st j).load bs).parsePos
      ((P.restate p st j).load bs).window)) (P.finish (scan P.step (extend i.last bs j) st p bs))
    rw [hwin', hload, P.state_restate, P.pos_restate,
      scan_map (P.restate p st) (p + bs.length)
        (fun j' st' p' ch _ => P.step_restate p st j' st' p' ch) _ _ _ _ (Nat.le_refl _)]
    exact P.finish_restate p st fun j' rc hf => scan_fail (P.step_fail) hf
  | done j p =>
    rw [hscan] at hmore
    cases hmore
  | fail j rc =>
    rw [hscan] at hmore
    have hno : rc ≠ .ok ∧ rc ≠ .again := scan_fail (P.step_fail) hscan
    exact absurd hmore hno.2

/-- What a call has decided stays when bytes follow. -/
theorem call_extend {i : Input} (hpos : i.parsePos ≤ i.last) {bs : Bytes}
    (hlast : i.last + bs.length ≤ MAX_BUF) (hdone : (P.call i).2 ≠ .again) :
    P.call (i.load bs) = ((P.call i).1.load bs, (P.call i).2) := by
  have hframe := P.call_frame i
  rw [P.call_load hpos hlast, load_eq_extend hframe]
  unfold call at hdone ⊢
  cases hscan : scan P.step i (P.state i) i.parsePos i.window with
  | more j st p =>
    rw [hscan] at hdone
    exact absurd rfl hdone
  | done j p => exact Prod.ext (P.extend_accept i.last bs p j).symm rfl
  | fail j rc => rfl

end Parser

/-- `zv_http_parse_request_line` as a parser. -/
def lineParser : Parser LineState where
  step := lineByte
  state := Input.requestLineState
  restate := restateLine
  accept pos i :=
    { i with
      parsePos := pos, requestEnd := i.requestEnd.or (some (pos - 1))
      requestLineState := .swStart }
  step_frame := lineByte_frame
  step_extend := lineByte_extend
  step_restate := lineByte_restate
  step_fail _ _ _ _ _ _ := lineByte_fail
  state_extend _ _ _ := rfl
  state_restate _ _ _ := rfl
  pos_restate _ _ _ := rfl
  frame_restate _ _ _ := rfl
  extend_restate _ _ _ _ _ := rfl
  restate_restate _ _ _ _ _ := rfl
  pos_accept _ _ := rfl
  frame_accept _ _ := rfl
  extend_accept _ _ _ _ := rfl
  accept_restate _ _ _ _ := rfl

/-- `zv_http_parse_request_body` as a parser. -/
def headerParser : Parser HeaderState where
  step := headerByte
  state := Input.headerState
  restate := restateHeader
  accept pos i := { i with parsePos := pos, headerState := .swStart }
  step_frame := headerByte_frame
  step_extend n bs i st p ch _ := headerByte_extend n bs i st p ch
  step_restate := headerByte_restate
  step_fail _ _ _ _ _ _ := headerByte_fail
  state_extend _ _ _ := rfl
  state_restate _ _ _ := rfl
  pos_restate _ _ _ := rfl
  frame_restate _ _ _ := rfl
  extend_restate _ _ _ _ _ := rfl
  restate_restate _ _ _ _ _ := rfl
  pos_accept _ _ := rfl
  frame_accept _ _ := rfl
  extend_accept _ _ _ _ := rfl
  accept_restate _ _ _ _ := rfl

theorem lineRun_eq (i : Input) (state : LineState) (pi : Nat) (bs : Bytes) :
    lineRun i state pi bs = lineParser.finish (scan lineByte i state pi bs) := by
  induction bs generalizing i state pi with
  | nil => rfl
  | cons ch bs ih =>
    rw [lineRun, scan]
    cases lineByte i state pi ch with
    | next i' state' => exact ih i' state' (pi + 1)
    | done i' => rfl
    | fail i' rc => rfl

theorem headerRun_eq (i : Input) (state : HeaderState) (pi : Nat) (bs : Bytes) :
    headerRun i state pi bs = headerParser.finish (scan headerByte i state pi bs) := by
  induction bs generalizing i state pi with
  | nil => rfl
  | cons ch bs ih =>
    rw [headerRun, scan]
    cases headerByte i state pi ch with
    | next i' state' => exact ih i' state' (pi + 1)
    | done i' => rfl
    | fail i' rc => rfl

theorem parseLine_eq (i : Input) : zvHttpParseRequestLine i = lineParser.call i :=
  lineRun_eq _ _ _ _

theorem parseBody_eq (i : Input) : zvHttpParseRequestBody i = headerParser.call i :=
  headerRun_eq _ _ _ _

/-! ### The phase machine -/

/-- The two parts of the window that a call leaves as they are. -/
structure SameWindow (i j : Input) : Prop where
  buf : j.buf = i.buf
  last : j.last = i.last

theorem SameWindow.of_frame {i j : Input} (h : frameOf j = frameOf i) : SameWindow i j :=
  ⟨congrArg (fun x => x.1) h, congrArg (fun x => x.2.1) h⟩

theorem SameWindow.trans {i j k : Input} (h : SameWindow i j) (h' : SameWindow j k) :
    SameWindow i k :=
  ⟨h'.buf.trans h.buf, h'.last.trans h.last⟩

/-- How the second phase ends, by how its parser ends. -/
theorem headerPhase_cases {i : Input} (hph : i.parsePhase = .headers) :
    headerPhase i = if (headerParser.call i).2 = .ok then
      ({ (headerParser.call i).1 with parsePhase := .ready }, .ok) else headerParser.call i := by
  unfold headerPhase
  rw [if_pos hph, parseBody_eq]
  generalize headerParser.call i = r
  obtain ⟨j, rc⟩ := r
  cases rc <;> rfl

theorem headerPhase_ready {i : Input} (hph : i.parsePhase ≠ .headers) :
    headerPhase i = (i, .ok) := by
  unfold headerPhase
  rw [if_neg hph]

theorem parsePhases_line {i : Input} (hph : i.parsePhase = .line) :
    parsePhases i = if (lineParser.call i).2 = .ok then
      headerPhase { (lineParser.call i).1 with parsePhase := .headers } else lineParser.call i := by
  unfold parsePhases
  rw [if_pos hph, parseLine_eq]
  generalize lineParser.call i = r
  obtain ⟨j, rc⟩ := r
  cases rc <;> rfl

theorem parsePhases_headers {i : Input} (hph : i.parsePhase ≠ .line) :
    parsePhases i = headerPhase i := by
  unfold parsePhases
  rw [if_neg hph]

theorem headerPhase_frame {i : Input} (hpos : i.parsePos ≤ i.last) :
    SameWindow i (headerPhase i).1 ∧
      ((headerPhase i).2 = .again →
        (headerPhase i).1.parsePos = i.last ∧ (headerPhase i).1.parsePhase = .headers) ∧
      ((headerPhase i).2 = .ok →
        i.parsePos ≤ (headerPhase i).1.parsePos ∧ (headerPhase i).1.parsePos ≤ i.last) := by
  by_cases hph : i.parsePhase = .headers
  · have hframe := headerParser.call_frame i
    obtain ⟨h1, h2⟩ := headerParser.call_pos hpos
    rw [headerPhase_cases hph]
    split
    · next hok =>
      have hw := SameWindow.of_frame hframe
      exact ⟨⟨hw.buf, hw.last⟩, (fun hx => by cases hx), fun _ => ⟨(h2 hok).1.le, (h2 hok).2⟩⟩
    · next hno =>
      refine ⟨SameWindow.of_frame hframe, fun hx => ⟨h1 hx, ?_⟩, fun hx => absurd hx hno⟩
      exact (congrArg (fun x => x.2.2) hframe).trans hph
  · rw [headerPhase_ready hph]
    exact ⟨⟨rfl, rfl⟩, (fun hx => by cases hx), fun _ => ⟨Nat.le_refl _, hpos⟩⟩

theorem parsePhases_frame {i : Input} (hpos : i.parsePos ≤ i.last) :
    SameWindow i (parsePhases i).1 ∧
      ((parsePhases i).2 = .again → (parsePhases i).1.parsePos = i.last) ∧
      ((parsePhases i).2 = .ok →
        i.parsePos ≤ (parsePhases i).1.parsePos ∧ (parsePhases i).1.parsePos ≤ i.last) := by
  by_cases hph : i.parsePhase = .line
  · have hw := SameWindow.of_frame (lineParser.call_frame i)
    obtain ⟨h1, h2⟩ := lineParser.call_pos hpos
    rw [parsePhases_line hph]
    split
    · next hok =>
      obtain ⟨g1, g2, g3⟩ := headerPhase_frame
        (i := { (lineParser.call i).1 with parsePhase := .headers })
        (by
          show (lineParser.call i).1.parsePos ≤ (lineParser.call i).1.last
          rw [hw.last]
          exact (h2 hok).2)
      refine ⟨⟨g1.buf.trans hw.buf, g1.last.trans hw.last⟩, fun hx => (g2 hx).1.trans hw.last,
        fun hx => ⟨(h2 hok).1.le.trans (g3 hx).1, (g3 hx).2.trans hw.last.le⟩⟩
    · next hno => exact ⟨hw, h1, fun hx => absurd hx hno⟩
  · rw [parsePhases_headers hph]
    obtain ⟨g1, g2, g3⟩ := headerPhase_frame hpos
    exact ⟨g1, fun hx => (g2 hx).1, g3⟩

theorem headerPhase_resume {i : Input} (hpos : i.parsePos ≤ i.last) {bs : Bytes}
    (hlast : i.last + bs.length ≤ MAX_BUF) (hmore : (headerPhase i).2 = .again) :
    SameResult (headerPhase ((headerPhase i).1.load bs)) (headerPhase (i.load bs)) := by
  by_cases hph : i.parsePhase = .headers
  · have hph' := ((headerPhase_frame hpos).2.1 hmore).2
    rw [headerPhase_cases hph] at hmore hph' ⊢
    split at hmore
    · cases hmore
    · next hno =>
      rw [if_neg hno] at hph' ⊢
      have h := headerParser.call_resume hpos hlast hmore
      rw [headerPhase_cases (show ((headerParser.call i).1.load bs).parsePhase = .headers from hph'),
        headerPhase_cases (show (i.load bs).parsePhase = .headers from hph), h.1]
      split
      · next hok =>
        refine ⟨rfl, fun _ => ?_⟩
        dsimp only
        rw [h.2 (Or.inl (h.1.trans hok))]
      · exact h
  · rw [headerPhase_ready hph] at hmore
    cases hmore

theorem headerPhase_extend {i : Input} (hpos : i.parsePos ≤ i.last) {bs : Bytes}
    (hlast : i.last + bs.length ≤ MAX_BUF) (hdone : (headerPhase i).2 ≠ .again) :
    headerPhase (i.load bs) = ((headerPhase i).1.load bs, (headerPhase i).2) := by
  by_cases hph : i.parsePhase = .headers
  · rw [headerPhase_cases hph] at hdone ⊢
    rw [headerPhase_cases (show (i.load bs).parsePhase = .headers from hph)]
    split at hdone
    · next hok =>
      have h := headerParser.call_extend hpos hlast (by rw [hok]; exact fun hx => by cases hx)
      rw [h, if_pos hok, if_pos hok]
      rfl
    · next hno =>
      have h := headerParser.call_extend hpos hlast hdone
      rw [h, if_neg hno, if_neg hno]
  · rw [headerPhase_ready hph, headerPhase_ready (show (i.load bs).parsePhase ≠ .headers from hph)]

end ParseResumeLemmas

open ParseResumeLemmas

/-- A call that wanted more, continued with more bytes, does what one call does on all of
them. -/
theorem parsePhases_resume {i : Input} (hpos : i.parsePos ≤ i.last) {bs : Bytes}
    (hlast : i.last + bs.length ≤ MAX_BUF) (hmore : (parsePhases i).2 = .again) :
    SameResult (parsePhases ((parsePhases i).1.load bs)) (parsePhases (i.load bs)) := by
  by_cases hph : i.parsePhase = .line
  · have hframe := lineParser.call_frame i
    have hw := SameWindow.of_frame hframe
    have hphase : (lineParser.call i).1.parsePhase = .line :=
      (congrArg (fun x => x.2.2) hframe).trans hph
    rw [parsePhases_line hph] at hmore ⊢
    rw [parsePhases_line (show (i.load bs).parsePhase = .line from hph)]
    split at hmore
    · next hok =>
      have hle : (lineParser.call i).1.parsePos ≤ (lineParser.call i).1.last := by
        rw [hw.last]
        exact ((lineParser.call_pos hpos).2 hok).2
      have hext := lineParser.call_extend hpos hlast (by rw [hok]; exact fun hx => by cases hx)
      have hres := headerPhase_resume (i := { (lineParser.call i).1 with parsePhase := .headers })
        hle (by show (lineParser.call i).1.last + bs.length ≤ MAX_BUF; rw [hw.last]; exact hlast)
        hmore
      have hnl : ((headerPhase { (lineParser.call i).1 with parsePhase := .headers }).1.load
          bs).parsePhase ≠ .line := by
        have hh := ((headerPhase_frame (i := { (lineParser.call i).1 with parsePhase := .headers })
          hle).2.1 hmore).2
        show (headerPhase _).1.parsePhase ≠ .line
        rw [hh]
        exact fun hx => by cases hx
      rw [if_pos hok, parsePhases_headers hnl, hext, if_pos hok]
      exact hres
    · next hno =>
      rw [if_neg hno]
      have hres := lineParser.call_resume hpos hlast hmore
      rw [parsePhases_line (show ((lineParser.call i).1.load bs).parsePhase = .line from hphase),
        hres.1]
      split
      · next hok =>
        rw [hres.2 (Or.inl (hres.1.trans hok))]
        exact SameResult.refl _
      · exact hres
  · rw [parsePhases_headers hph] at hmore ⊢
    rw [parsePhases_headers (show (i.load bs).parsePhase ≠ .line from hph)]
    have hnl : ((headerPhase i).1.load bs).parsePhase ≠ .line := by
      show (headerPhase i).1.parsePhase ≠ .line
      rw [((headerPhase_frame hpos).2.1 hmore).2]
      exact fun hx => by cases hx
    rw [parsePhases_headers hnl]
    exact headerPhase_resume hpos hlast hmore

/-- What a call has decided stays when bytes follow. -/
theorem parsePhases_extend {i : Input} (hpos : i.parsePos ≤ i.last) {bs : Bytes}
    (hlast : i.last + bs.length ≤ MAX_BUF) (hdone : (parsePhases i).2 ≠ .again) :
    parsePhases (i.load bs) = ((parsePhases i).1.load bs, (parsePhases i).2) := by
  by_cases hph : i.parsePhase = .line
  · have hw := SameWindow.of_frame (lineParser.call_frame i)
    rw [parsePhases_line hph] at hdone ⊢
    rw [parsePhases_line (show (i.load bs).parsePhase = .line from hph)]
    split at hdone
    · next hok =>
      have hext := lineParser.call_extend hpos hlast (by rw [hok]; exact fun hx => by cases hx)
      have hle : (lineParser.call i).1.parsePos ≤ (lineParser.call i).1.last := by
        rw [hw.last]
        exact ((lineParser.call_pos hpos).2 hok).2
      rw [hext, if_pos hok, if_pos hok]
      exact headerPhase_extend (i := { (lineParser.call i).1 with parsePhase := .headers }) hle
        (by show (lineParser.call i).1.last + bs.length ≤ MAX_BUF; rw [hw.last]; exact hlast) hdone
    · next hno =>
      have hext := lineParser.call_extend hpos hlast hdone
      rw [hext, if_neg hno, if_neg hno]
  · rw [parsePhases_headers hph] at hdone ⊢
    rw [parsePhases_headers (show (i.load bs).parsePhase ≠ .line from hph)]
    exact headerPhase_extend hpos hlast hdone

/-! ## Pieces -/

theorem Input.load_nil (i : Input) : i.load [] = i := by
  have hbuf : i.buf.write i.last [] = i.buf := by
    funext x
    simp [Mem.write]
  unfold Input.load
  rw [hbuf]
  rfl

theorem Input.load_append (i : Input) (s t : Bytes) : i.load (s ++ t) = (i.load s).load t := by
  have hbuf : i.buf.write i.last (s ++ t) = (i.buf.write i.last s).write (i.last + s.length) t := by
    funext x
    unfold Mem.write
    by_cases h1 : i.last + s.length ≤ x
    · rw [if_pos (by omega), if_pos h1, if_pos (by omega),
        List.getElem?_append_right (by omega), List.getElem?_eq_none (show s.length ≤ x - i.last by omega)]
      congr 2
      omega
    · rw [if_neg h1]
      by_cases h2 : i.last ≤ x
      · rw [if_pos h2, if_pos h2, List.getElem?_append_left (by omega)]
      · rw [if_neg h2, if_neg h2]
  unfold Input.load
  dsimp only
  rw [hbuf, List.length_append, Nat.add_assoc]

/-- A request that a single call accepts, to its last byte, is accepted in any pieces. -/
theorem feed_eq {i j : Input} {ps : List Bytes} (hpos : i.parsePos ≤ i.last)
    (hlast : i.last + ps.flatten.length ≤ MAX_BUF) (hmore : (parsePhases i).2 = .again)
    (hone : parsePhases (i.load ps.flatten) = (j, .ok)) (hend : j.parsePos = j.last) :
    feed i ps = (j, .ok) := by
  induction ps generalizing i with
  | nil =>
    rw [List.flatten_nil, Input.load_nil] at hone
    rw [hone] at hmore
    cases hmore
  | cons p ps ih =>
    rw [List.flatten_cons, List.length_append] at hlast
    rw [List.flatten_cons, Input.load_append] at hone
    have hp : (i.load p).parsePos ≤ (i.load p).last := hpos.trans (Nat.le_add_right _ _)
    have hl : (i.load p).last + ps.flatten.length ≤ MAX_BUF := by
      show i.last + p.length + _ ≤ MAX_BUF
      omega
    obtain ⟨hw, hmid, hok⟩ := parsePhases_frame hp
    have hfeed : feed i (p :: ps) =
        if (parsePhases (i.load p)).2 = .again then feed (parsePhases (i.load p)).1 ps
        else parsePhases (i.load p) := by
      rw [feed]
      generalize parsePhases (i.load p) = r
      obtain ⟨k, rc⟩ := r
      cases rc <;> rfl
    rw [hfeed]
    split
    · next hagain =>
      have hres := parsePhases_resume hp hl hagain
      rw [hone] at hres
      have hempty := @parsePhases_resume _ hp [] (by simp; omega) hagain
      rw [Input.load_nil, Input.load_nil] at hempty
      refine ih ?_ ?_ (hempty.1.trans hagain) (Prod.ext (hres.2 (Or.inl hres.1)) hres.1)
      · rw [hmid hagain, hw.last]
      · rw [hw.last]
        exact hl
    · next hdone =>
      have hext := parsePhases_extend hp hl hdone
      rw [hone] at hext
      obtain ⟨hj, hrc⟩ := Prod.mk.inj hext
      have hle := (hok hrc.symm).2
      have hrest : ps.flatten = [] := by
        rw [hj] at hend
        have hsum : (parsePhases (i.load p)).1.parsePos =
            (parsePhases (i.load p)).1.last + ps.flatten.length := hend
        rw [hw.last] at hsum
        exact List.length_eq_zero_iff.mp (by omega)
      rw [hrest, Input.load_nil] at hj
      exact Prod.ext hj.symm hrc.symm

end Zaver
