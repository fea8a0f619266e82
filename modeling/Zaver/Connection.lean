import Zaver.Lib.Runs
import Zaver.Answer
import Zaver.CgiRelay
import Zaver.RefusedLine

/-!
# One connection

A connection is accepted, and from then on its callbacks run one at a time: `do_request`
and `do_write` when an event of its socket was taken, `zv_cgi_on_stdout_ready` for its
CGI pipe, and the two ways in which the worker closes it, after an error event and when
its timer expires. `connStep` lets them run in any order in which epoll can bring them
up: a registration is made for one event, and the event is taken by `epoll_wait` before
its callback runs.

`requestPass_cases` and `requestLoop_cases` say what `do_request` can do;
`connStep_cases` is the list of the steps.
-/

namespace Zaver

open CString Runs

/-! ## Steps -/

/-- What can happen to a connection between two callbacks, with the answers of the kernel. -/
inductive ConnAct
  | takeSocket
  | takePipe
  | request (es : List PassEnv)
  | write (e : WriteEnv)
  | stdout (answers : List (Ans Bytes)) (reaped : Bool)
  | hangup (reaped : Bool)
  | expire (reaped : Bool)

/-- The event of a registration was taken. -/
def Reg.take : Reg → Option Reg
  | .armed ev => some (.fired ev)
  | _ => none

/-- The registration waits for `ev`, or the event is waiting for its callback. -/
def Reg.waits (g : Reg) (ev : Interest) : Bool := g == .armed ev || g == .fired ev

/-- A callback that has returned. -/
def returned (res : Conn × Bool) : Option Conn := if res.2 then some res.1 else none

/-- One step of a connection. -/
def connStep (lib : Libc) (c : Conn) : ConnAct → Option Conn
  | .takeSocket => c.sock.take.map fun g => { c with sock := g }
  | .takePipe => c.pipe.take.map fun g => { c with pipe := g }
  | .request es =>
    if c.sock = .fired .epollin then returned (doRequest lib es { c with sock := .off }) else none
  | .write e =>
    if c.sock = .fired .epollout then returned (doWrite e { c with sock := .off }) else none
  | .stdout answers reaped =>
    if c.pipe = .fired .epollin then
      returned (zvCgiOnStdoutReady answers reaped { c with pipe := .off })
    else none
  | .hangup reaped =>
    match c.sock with
    | .fired _ => some (zvHttpCloseConn reaped c.delTimer)
    | _ => none
  | .expire reaped => if c.isOpen then some (zvHttpCloseConn reaped c) else none

/-- A connection as the worker accepts it. The block may have been used before. -/
def acceptConn (old : Request) (fd : Fd) (cf : Conf) : Conn :=
  let r := zvInitRequestT old fd cf
  { r := r, sock := .armed .epollin, pipe := .off, isOpen := true
    tr := [.addTimer r.keepAliveTimeoutMs] }

/-- The states that a connection reaches. -/
def Reached (lib : Libc) (c : Conn) : Prop :=
  ∃ old fd cf acts, run (connStep lib) (acceptConn old fd cf) acts = some c

/-- The state at the head of the loop of `do_request` after some passes. -/
def passes (lib : Libc) (c : Conn) : List PassEnv → Option Conn
  | [] => some c
  | e :: es =>
    match requestPass lib e c with
    | (c, .next) => passes lib c es
    | _ => none

/-- The steps, one by one. -/
inductive Stepped (lib : Libc) (c : Conn) : ConnAct → Conn → Prop
  | takeSocket (g : Reg) : c.sock.take = some g → Stepped lib c .takeSocket { c with sock := g }
  | takePipe (g : Reg) : c.pipe.take = some g → Stepped lib c .takePipe { c with pipe := g }
  | request (es : List PassEnv) (c' : Conn) : c.sock = .fired .epollin →
      doRequest lib es { c with sock := .off } = (c', true) → Stepped lib c (.request es) c'
  | write (e : WriteEnv) (c' : Conn) : c.sock = .fired .epollout →
      doWrite e { c with sock := .off } = (c', true) → Stepped lib c (.write e) c'
  | stdout (answers : List (Ans Bytes)) (reaped : Bool) (c' : Conn) : c.pipe = .fired .epollin →
      zvCgiOnStdoutReady answers reaped { c with pipe := .off } = (c', true) →
      Stepped lib c (.stdout answers reaped) c'
  | hangup (ev : Interest) (reaped : Bool) : c.sock = .fired ev →
      Stepped lib c (.hangup reaped) (zvHttpCloseConn reaped c.delTimer)
  | expire (reaped : Bool) : c.isOpen = true →
      Stepped lib c (.expire reaped) (zvHttpCloseConn reaped c)

namespace ConnectionLemmas

theorem returned_eq {x : Conn × Bool} {c : Conn} (h : returned x = some c) : x = (c, true) := by
  obtain ⟨c₁, b⟩ := x
  cases b with
  | false => cases h
  | true => exact congrArg (·, true) (Option.some.inj h)

end ConnectionLemmas

open ConnectionLemmas

theorem connStep_cases {lib : Libc} {c c' : Conn} {a : ConnAct}
    (h : connStep lib c a = some c') : Stepped lib c a c' := by
  cases a with
  | takeSocket =>
    obtain ⟨g, hg, rfl⟩ := Option.map_eq_some_iff.mp h
    exact .takeSocket g hg
  | takePipe =>
    obtain ⟨g, hg, rfl⟩ := Option.map_eq_some_iff.mp h
    exact .takePipe g hg
  | request es =>
    simp only [connStep] at h
    split at h
    · next hf => exact .request es c' hf (returned_eq h)
    · cases h
  | write e =>
    simp only [connStep] at h
    split at h
    · next hf => exact .write e c' hf (returned_eq h)
    · cases h
  | stdout answers reaped =>
    simp only [connStep] at h
    split at h
    · next hf => exact .stdout answers reaped c' hf (returned_eq h)
    · cases h
  | hangup reaped =>
    simp only [connStep] at h
    split at h
    · next ev hf =>
      obtain rfl := Option.some.inj h
      exact .hangup ev reaped hf
    · cases h
  | expire reaped =>
    simp only [connStep] at h
    split at h
    · next hopen =>
      obtain rfl := Option.some.inj h
      exact .expire reaped hopen
    · cases h

/-! ## What one pass can do -/

/-- The state in which the parsers run: bytes are left, or some were read. -/
inductive Fed (c : Conn) : Conn → Prop
  | left : c.r.inp.parsePos < c.r.inp.last → Fed c c
  | read (bs : Bytes) :
      c.r.inp.last ≤ c.r.inp.parsePos → bs ≠ [] → c.r.inp.last + bs.length ≤ MAX_BUF - 1 →
      Fed c { c with r := { c.r with inp := c.r.inp.load bs }, tr := c.tr ++ [.recv bs] }

/-- The ends of one pass. -/
inductive Passed (lib : Libc) (e : PassEnv) (c : Conn) : Conn × PassExit → Prop
  | idle : c.r.inp.last ≤ c.r.inp.parsePos → Passed lib e c (c, .idle)
  | dropped : c.r.inp.last ≤ c.r.inp.parsePos → Passed lib e c (c.closeLabel e.reaped, .closed)
  | more (c₁ : Conn) (i : Input) : Fed c c₁ → parsePhases c₁.r.inp = (i, .again) →
      Passed lib e c ({ c₁ with r := { c₁.r with inp := i } }, .next)
  | refused (c₁ : Conn) : Fed c c₁ → Stuck c₁.r.inp →
      Passed lib e c
        ({ c₁ with r := { c₁.r with inp := (zvHttpParseRequestLine c₁.r.inp).1 } }, .next)
  | bad (c₁ : Conn) (i : Input) (rc : ParseRc) : Fed c c₁ → parsePhases c₁.r.inp = (i, rc) →
      rc = .invalidMethod ∨ rc = .invalidHeader →
      Passed lib e c (Conn.closeLabel e.reaped { c₁ with r := { c₁.r with inp := i } }, .closed)
  | answered (c₁ : Conn) (i : Input) (x : Conn × PassExit) : Fed c c₁ →
      parsePhases c₁.r.inp = (i, .ok) →
      x = answer lib e { c₁ with r := { c₁.r with inp := i } } → Passed lib e c x

namespace ConnectionLemmas

theorem parseAndAnswer_passed {lib : Libc} {e : PassEnv} {c c₁ : Conn} (h : Fed c c₁) :
    Passed lib e c (parseAndAnswer lib e c₁) := by
  obtain ⟨i, rc, hp⟩ : ∃ i rc, parsePhases c₁.r.inp = (i, rc) := ⟨_, _, rfl⟩
  unfold parseAndAnswer
  rw [hp]
  cases rc with
  | ok => exact .answered c₁ i _ h hp rfl
  | again => exact .more c₁ i h hp
  | invalidMethod => exact .bad c₁ i _ h hp (.inl rfl)
  | invalidRequest =>
    -- The code is that of `ZV_AGAIN`.
    obtain ⟨hs, rfl⟩ := stuck_of_refused hp
    exact .refused c₁ h hs
  | invalidHeader => exact .bad c₁ i _ h hp (.inr rfl)

end ConnectionLemmas

open ConnectionLemmas

theorem requestPass_cases (lib : Libc) (e : PassEnv) (c : Conn) :
    Passed lib e c (requestPass lib e c) := by
  unfold requestPass
  split
  · next hle =>
    split
    · exact .dropped hle
    · next hroom =>
      split
      · next bs hread =>
        dsimp only
        split
        · exact .dropped hle
        · next hne =>
          have hlen : (bs.take (MAX_BUF - c.r.inp.last - 1)).length ≤
              MAX_BUF - c.r.inp.last - 1 := by
            rw [List.length_take]
            exact Nat.min_le_left _ _
          exact parseAndAnswer_passed (.read _ hle hne (by omega))
      · exact .idle hle
      · exact .dropped hle
  · next hlt => exact parseAndAnswer_passed (.left (by omega))

/-- A request line that is refused is refused in every further pass. -/
theorem requestPass_stuck (lib : Libc) (e : PassEnv) {c : Conn} (h : Stuck c.r.inp) :
    requestPass lib e c =
      ({ c with r := { c.r with inp := (zvHttpParseRequestLine c.r.inp).1 } }, .next) := by
  unfold requestPass
  rw [if_neg (Nat.not_le.mpr h.unparsed)]
  unfold parseAndAnswer
  rw [h.parse]
  rfl

/-- `do_request` does not come back from it. -/
theorem requestLoop_stuck (lib : Libc) (es : List PassEnv) {c : Conn} (h : Stuck c.r.inp) :
    (requestLoop lib c es).2 = false := by
  induction es generalizing c with
  | nil => rfl
  | cons e es ih =>
    unfold requestLoop
    rw [requestPass_stuck lib e h]
    exact ih (c := { c with r := { c.r with inp := _ } }) h.again

/-- What a `do_request` that has returned did last: the passes before it went on, and none of
them refused a request line. -/
theorem requestLoop_cases {lib : Libc} {P : Conn → Prop}
    (hnext : ∀ e c c', P c → ¬ Stuck c'.r.inp → requestPass lib e c = (c', .next) → P c')
    {c c' : Conn} {es : List PassEnv} (hP : P c) (h : requestLoop lib c es = (c', true)) :
    ∃ c₁ e c₂ x, P c₁ ∧ requestPass lib e c₁ = (c₂, x) ∧
      ((x = .idle ∧ ∃ ms, c' = (c₂.rearmEvent .epollin).addTimer ms) ∨
        ((x = .returned ∨ x = .closed) ∧ c' = c₂)) := by
  induction es generalizing c with
  | nil => cases congrArg Prod.snd h
  | cons e es ih =>
    unfold requestLoop at h
    split at h
    · next c₂ heq =>
      have hfree : ¬ Stuck c₂.r.inp := fun hs => by
        have hno := requestLoop_stuck lib es hs
        rw [h] at hno
        cases hno
      exact ih (hnext e c c₂ hP hfree heq) h
    · next c₂ heq =>
      exact ⟨c, e, c₂, .idle, hP, heq, .inl ⟨rfl, _, (Prod.mk.inj h).1.symm⟩⟩
    · cases congrArg Prod.snd h
    · next c₂ x hn hi hc heq =>
      refine ⟨c, e, c₂, x, hP, heq, .inr ⟨?_, (Prod.mk.inj h).1.symm⟩⟩
      cases x with
      | next => exact absurd rfl hn
      | idle => exact absurd rfl hi
      | inCall => exact absurd rfl hc
      | returned => exact .inl rfl
      | closed => exact .inr rfl

/-! ## Phases -/

/-- No response is prepared. -/
structure Clean (o : Output) : Prop where
  writing : o.writing = false
  headerLen : o.outHeaderLen = 0
  headerSent : o.outHeaderSent = 0
  body : o.outBody = none
  file : o.outFileFd = none

/-- The receive window lies in the buffer. -/
structure Window (i : Input) : Prop where
  pos : i.parsePos ≤ i.last
  last : i.last ≤ MAX_BUF - 1

/-- No script was started on the connection: the CGI fields are as they were initialised. -/
def NoScript (c : CgiState) : Prop := ∃ old fd cf, c = (zvInitRequestT old fd cf).cgi

/-- The connection inside `do_request`, before a script is started. -/
structure Inside (c : Conn) : Prop where
  isOpen : c.isOpen = true
  sock : c.sock = .off
  pipe : c.pipe = .off
  cgi : NoScript c.r.cgi
  window : Window c.r.inp

/-- The connection at the head of the loop of `do_request`. -/
structure AtLoop (c : Conn) : Prop extends Inside c where
  out : Clean c.r.out

/-- A mark that a request was handed over. -/
def Call.isServe : Call → Bool
  | .serve _ _ => true
  | _ => false

/-- The calls made since the last request was handed over. -/
def sinceServe (tr : List Call) : List Call := tr.rtakeWhile fun call => !call.isServe

/-- A script runs, and what it sent, what the client accepted and what it is owed agree. -/
structure Script (c : Conn) : Prop where
  active : c.r.cgi.active = true
  relay : Relay c.r.cgi (accepted (sinceServe c.tr)) (pieces (sinceServe c.tr))
  text : BuiltLine c.r.cgi

/-- The phases of a connection between two callbacks. -/
inductive Phase (c : Conn) : Prop
  | reading (isOpen : c.isOpen = true) (sock : c.sock.waits .epollin = true) (pipe : c.pipe = .off)
      (out : Clean c.r.out) (cgi : NoScript c.r.cgi) (window : Window c.r.inp)
  | writing (isOpen : c.isOpen = true) (sock : c.sock.waits .epollout = true) (pipe : c.pipe = .off)
      (out : c.r.out.writing = true) (cgi : NoScript c.r.cgi) (window : Window c.r.inp)
  | cgiReading (isOpen : c.isOpen = true) (sock : c.sock = .off)
      (pipe : c.pipe.waits .epollin = true) (script : Script c)
      (outFd : c.r.cgi.outFd ≠ none) (sent : unsentChunk c.r.cgi = false)
  | cgiWriting (isOpen : c.isOpen = true) (sock : c.sock.waits .epollout = true)
      (pipe : c.pipe = .off) (script : Script c) (built : c.r.cgi.headersDone = true)
      (outFd : c.r.cgi.eof = false → c.r.cgi.outFd ≠ none)
  | closed (isOpen : c.isOpen = false) (sock : c.sock = .off) (pipe : c.pipe = .off)
      (idle : c.r.cgi.active = false)

namespace ConnectionLemmas

open SendCompleteLemmas AnswerLemmas ParseResumeLemmas CgiReaderLemmas ChunkWriterLemmas
open CgiRelayLemmas

/-! ### `try_send` on a connection -/

theorem chargeOut_frame (o : Output) (n : Nat) : ∃ hs bs, chargeOut o n =
    { o with outHeaderSent := hs, outBodySent := bs } := by
  unfold chargeOut
  dsimp only
  split
  · exact ⟨_, _, rfl⟩
  · exact ⟨_, o.outBodySent, rfl⟩

theorem trySendMem_frame (o : Output) (answers : List (Ans Nat)) : ∃ hs bs,
    (trySendMem o answers).1 = { o with outHeaderSent := hs, outBodySent := bs } := by
  induction answers generalizing o with
  | nil => exact ⟨_, _, rfl⟩
  | cons a answers ih =>
    unfold trySendMem
    split
    · cases a with
      | ok n =>
        dsimp only
        split
        · exact ⟨_, _, rfl⟩
        · obtain ⟨hs, bs, hc⟩ := chargeOut_frame o ((sendIov o).take n).length
          obtain ⟨hs', bs', hr⟩ := ih (chargeOut o ((sendIov o).take n).length)
          refine ⟨hs', bs', ?_⟩
          rw [hc] at hr
          dsimp only
          rw [hc, hr]
      | eintr => exact ih o
      | eagain => exact ⟨_, _, rfl⟩
      | error => exact ⟨_, _, rfl⟩
    · exact ⟨_, _, rfl⟩

/-- `try_send` moves the counters and calls `writev` and `sendfile`. -/
theorem trySend_frame {e : SendEnv} {c c₂ : Conn} {rc : SendRc} (h : c.trySend e = (c₂, rc)) :
    ∃ hs bs fo calls, (∀ x ∈ calls, Call.isSend x = true) ∧
      c₂ = { c with
        r := { c.r with out := { c.r.out with
          outHeaderSent := hs, outBodySent := bs, outFileOffset := fo } }
        tr := c.tr ++ calls } := by
  have hsends := trySend_sends e c.r.out
  obtain ⟨hs, bs, hmem⟩ := trySendMem_frame c.r.out e.writes
  have hout : ∃ fo, (trySend e c.r.out).1 =
      { c.r.out with outHeaderSent := hs, outBodySent := bs, outFileOffset := fo } := by
    unfold trySend
    split
    · next heq =>
      rw [heq] at hmem
      exact ⟨c.r.out.outFileOffset, hmem⟩
    · next o calls heq =>
      rw [heq] at hmem
      obtain rfl : o = _ := hmem
      exact ⟨_, (trySendFile_spec _ e.files).1⟩
  obtain ⟨fo, hout⟩ := hout
  obtain ⟨rfl, -⟩ := Prod.mk.inj h
  refine ⟨hs, bs, fo, _, hsends, ?_⟩
  rw [← hout]
  rfl

/-! ### `do_request` -/

theorem clean_reset (o : Output) : Clean (resetOutput o).1 := ⟨rfl, rfl, rfl, rfl, rfl⟩

theorem window_nextRequest {i : Input} (h : Window i) : Window i.nextRequest := by
  unfold Input.nextRequest
  dsimp only
  split
  · exact ⟨Nat.zero_le _, (Nat.sub_le _ _).trans h.last⟩
  · exact ⟨Nat.zero_le _, h.last⟩

/-- Where a step of `do_request` leaves the connection. -/
structure PassOk (x : Conn × PassExit) : Prop where
  next : x.2 = .next → AtLoop x.1
  idle : x.2 = .idle → AtLoop x.1 ∧ x.1.r.inp.parsePos = x.1.r.inp.last
  done : x.2 = .returned ∨ x.2 = .closed → Phase x.1 ∧ x.1.sock.waits .epollin = false

theorem phase_closed (reaped : Bool) (c : Conn) : Phase (zvHttpCloseConn reaped c) := by
  refine .closed rfl rfl rfl ?_
  unfold zvHttpCloseConn zvFreeRequestT freeCgi
  cases hact : c.r.cgi.active with
  | false => simp [hact]
  | true => simp

theorem PassOk.close (reaped : Bool) (c : Conn) : PassOk (c.closeLabel reaped, .closed) :=
  ⟨(fun hx => by cases hx), (fun hx => by cases hx), fun _ => ⟨phase_closed _ _, rfl⟩⟩

theorem PassOk.returned {c : Conn} (h : Phase c) (hw : c.sock.waits .epollin = false) :
    PassOk (c, .returned) :=
  ⟨(fun hx => by cases hx), (fun hx => by cases hx), fun _ => ⟨h, hw⟩⟩

theorem PassOk.inCall (c : Conn) : PassOk (c, .inCall) :=
  ⟨(fun hx => by cases hx), (fun hx => by cases hx), fun hx => hx.elim (fun h => by cases h)
    fun h => by cases h⟩

theorem PassOk.goOn {c : Conn} (h : AtLoop c) : PassOk (c, .next) :=
  ⟨fun _ => h, (fun hx => by cases hx), fun hx => hx.elim (fun h => by cases h) fun h => by cases h⟩

/-- A response that waits for room in the socket. -/
theorem waitOutput_phase {c : Conn} (h : Inside c) (hw : c.r.out.writing = true) :
    Phase c.waitOutput :=
  .writing h.isOpen rfl h.pipe hw h.cgi h.window

theorem requestDone_ok {e : PassEnv} {keepAlive : Bool} {c : Conn} (h : Inside c)
    (hout : c.r.out.writing = true ∨ Clean c.r.out) : PassOk (requestDone e keepAlive c) := by
  have hin : Inside { c with r := { c.r with inp := c.r.inp.nextRequest } } :=
    ⟨h.isOpen, h.sock, h.pipe, h.cgi, window_nextRequest h.window⟩
  unfold requestDone
  split
  · exact .close e.reaped c
  · dsimp only
    split
    · next hw => exact .returned (waitOutput_phase hin hw) rfl
    · next hw =>
      split
      · exact .close e.reaped _
      · exact .goOn ⟨hin, hout.resolve_left hw⟩

theorem deliver_ok {e : PassEnv} {last keepAlive : Bool} {c : Conn} (h : Inside c) :
    PassOk (deliver e last keepAlive c) := by
  unfold deliver
  split
  · next c₂ hs => exact .close e.reaped c₂
  · next c₂ hs =>
    obtain ⟨_, _, _, _, -, rfl⟩ := trySend_frame hs
    split
    · exact .returned (waitOutput_phase ⟨h.isOpen, h.sock, h.pipe, h.cgi, h.window⟩ rfl) rfl
    · exact requestDone_ok ⟨h.isOpen, h.sock, h.pipe, h.cgi, h.window⟩ (.inl rfl)
  · next c₂ hs =>
    obtain ⟨_, _, _, _, -, rfl⟩ := trySend_frame hs
    split
    · exact .close e.reaped _
    · exact requestDone_ok ⟨h.isOpen, h.sock, h.pipe, h.cgi, h.window⟩ (.inr (clean_reset _))
  · next c₂ hs => exact .inCall c₂

theorem prologue_inside {c c₁ : Conn} {look : List Call} {file : Option (Bytes × Fd)}
    (hp : Prologue c c₁ look file) (h : Inside c) : Inside c₁ := by
  have hw : Window c₁.r.inp := by
    rcases hp.input with heq | heq
    · rw [heq]
      exact h.window
    · rw [heq]
      exact ⟨h.window.pos, h.window.last⟩
  rw [hp.frame]
  exact ⟨h.isOpen, h.sock, h.pipe, h.cgi, hw⟩

theorem noScript_active {c : CgiState} (h : NoScript c) : c.active = false := by
  obtain ⟨_, _, _, rfl⟩ := h
  rfl

/-! ### The record -/

theorem sinceServe_append {t u : List Call} (h : ∀ x ∈ u, Call.isServe x = false) :
    sinceServe (t ++ u) = sinceServe t ++ u := by
  unfold sinceServe
  induction u using List.reverseRecOn with
  | nil => simp
  | append_singleton u x ih =>
    have hx : x.isServe = false := h x (by simp)
    have hu : ∀ y ∈ u, y.isServe = false := fun y hy => h y (by simp [hy])
    rw [← List.append_assoc, List.rtakeWhile_concat_pos _ _ _ (by simp [hx]), ih hu,
      List.append_assoc]

theorem sinceServe_serve {t u : List Call} {q : Served} {m : Method}
    (h : ∀ x ∈ u, Call.isServe x = false) : sinceServe (t ++ .serve q m :: u) = u := by
  have hsplit : t ++ .serve q m :: u = (t ++ [.serve q m]) ++ u := by simp
  rw [hsplit, sinceServe_append h]
  unfold sinceServe
  rw [List.rtakeWhile_concat_neg _ _ _ (by simp [Call.isServe])]
  rfl

theorem answered_ok {lib : Libc} {e : PassEnv} {c : Conn} {x : Conn × PassExit} (h : AtLoop c)
    (ha : Answered lib e c x) : PassOk x := by
  cases ha with
  | refused c₁ look hp => exact .close e.reaped c₁
  | reply c₁ look file last hp hcomp hlast hlook => exact deliver_ok (prologue_inside hp h.toInside)
  | started i file envp pid inR inW outR outW hi hm hu =>
    obtain ⟨old, fd, cf, hcgi⟩ := h.cgi
    refine .returned (.cgiReading h.isOpen h.sock rfl ⟨rfl, ?_, (fun hx => by cases hx)⟩
      (fun hx => by cases hx) rfl) (by show c.sock.waits .epollin = false; rw [h.sock]; rfl)
    have hsince : sinceServe (startedConn c i file envp pid inR inW outR outW).tr = _ :=
      sinceServe_serve (by simp [Call.isServe])
    rw [hsince]
    show Relay (startedCgi c.r.cgi pid outR) [] []
    rw [hcgi]
    exact relay_started old fd cf pid outR

theorem fed_loop {c c₁ : Conn} (h : AtLoop c) (hf : Fed c c₁) : AtLoop c₁ := by
  cases hf with
  | left hlt => exact h
  | read bs hle hne hroom =>
    have hpos : c.r.inp.parsePos ≤ c.r.inp.last + bs.length :=
      h.window.pos.trans (Nat.le_add_right _ _)
    exact ⟨⟨h.isOpen, h.sock, h.pipe, h.cgi, ⟨hpos, hroom⟩⟩, h.out⟩

theorem parsed_loop {c : Conn} {i : Input} {rc : ParseRc} (h : AtLoop c)
    (hp : parsePhases c.r.inp = (i, rc)) (hrc : rc = .again ∨ rc = .ok) :
    AtLoop { c with r := { c.r with inp := i } } := by
  obtain ⟨hw, hmore, hok⟩ := parsePhases_frame h.window.pos
  rw [hp] at hw hmore hok
  have hpos : i.parsePos ≤ c.r.inp.last := by
    rcases hrc with hrc | hrc
    · exact (hmore hrc).le
    · exact (hok hrc).2
  exact ⟨⟨h.isOpen, h.sock, h.pipe, h.cgi, ⟨hw.last.symm ▸ hpos, hw.last.symm ▸ h.window.last⟩⟩,
    h.out⟩

/-- A refused line leaves the window as it was. -/
theorem refused_loop {c : Conn} (h : AtLoop c) (hs : Stuck c.r.inp) :
    AtLoop { c with r := { c.r with inp := (zvHttpParseRequestLine c.r.inp).1 } } := by
  obtain ⟨hpos, hlast⟩ := hs.window
  exact ⟨⟨h.isOpen, h.sock, h.pipe, h.cgi, ⟨by rw [hpos, hlast]; exact h.window.pos,
    by rw [hlast]; exact h.window.last⟩⟩, h.out⟩

theorem requestPass_ok (lib : Libc) (e : PassEnv) {c : Conn} (h : AtLoop c) :
    PassOk (requestPass lib e c) := by
  have hp := requestPass_cases lib e c
  generalize requestPass lib e c = x at hp ⊢
  cases hp with
  | idle hle =>
    exact ⟨(fun hx => by cases hx), fun _ => ⟨h, Nat.le_antisymm h.window.pos hle⟩,
      fun hx => hx.elim (fun hx => by cases hx) fun hx => by cases hx⟩
  | dropped hle => exact .close e.reaped c
  | more c₁ i hf hpar => exact .goOn (parsed_loop (fed_loop h hf) hpar (.inl rfl))
  | refused c₁ hf hs => exact .goOn (refused_loop (fed_loop h hf) hs)
  | bad c₁ i rc hf hpar hrc => exact .close e.reaped _
  | answered c₁ i _ hf hpar hx =>
    rw [hx]
    exact answered_ok (parsed_loop (fed_loop h hf) hpar (.inr rfl)) (answer_cases lib e _)

/-- A `do_request` that has returned waits for input with everything parsed, or does not
wait for input. -/
theorem doRequest_cases {lib : Libc} {es : List PassEnv} {c c' : Conn} (h : AtLoop c)
    (hd : doRequest lib es c = (c', true)) :
    (∃ c₂ ms, AtLoop c₂ ∧ c₂.r.inp.parsePos = c₂.r.inp.last ∧
      c' = (c₂.rearmEvent .epollin).addTimer ms) ∨
      (Phase c' ∧ c'.sock.waits .epollin = false) := by
  have h₀ : AtLoop c.delTimer := ⟨⟨h.isOpen, h.sock, h.pipe, h.cgi, h.window⟩, h.out⟩
  have hnext : ∀ e c₁ c₂, AtLoop c₁ → ¬ Stuck c₂.r.inp →
      requestPass lib e c₁ = (c₂, .next) → AtLoop c₂ := by
    intro e c₁ c₂ h₁ _ heq
    have hok := requestPass_ok lib e h₁
    rw [heq] at hok
    exact hok.next rfl
  obtain ⟨c₁, e, c₂, x, h₁, hpass, hend⟩ := requestLoop_cases hnext h₀ hd
  have hok := requestPass_ok lib e h₁
  rw [hpass] at hok
  rcases hend with ⟨rfl, ms, rfl⟩ | ⟨hx, rfl⟩
  · obtain ⟨h₂, hpos⟩ := hok.idle rfl
    exact .inl ⟨c₂, ms, h₂, hpos, rfl⟩
  · exact .inr (hok.done hx)

theorem doRequest_phase {lib : Libc} {es : List PassEnv} {c c' : Conn} (h : AtLoop c)
    (hd : doRequest lib es c = (c', true)) : Phase c' := by
  rcases doRequest_cases h hd with ⟨c₂, ms, h₂, -, rfl⟩ | ⟨hph, -⟩
  · exact .reading h₂.isOpen rfl h₂.pipe h₂.out h₂.cgi h₂.window
  · exact hph

/-! ### `do_write` -/

theorem writeStatic_phase {e : WriteEnv} {c c' : Conn} (h : Inside c)
    (hw : writeStatic e c = (c', true)) : Phase c' := by
  unfold writeStatic at hw
  split at hw
  · next c₂ hs =>
    obtain ⟨_, _, _, _, -, rfl⟩ := trySend_frame hs
    obtain rfl := (Prod.mk.inj hw).1
    exact waitOutput_phase ⟨h.isOpen, h.sock, h.pipe, h.cgi, h.window⟩ rfl
  · obtain rfl := (Prod.mk.inj hw).1
    exact phase_closed _ _
  · cases congrArg Prod.snd hw
  · next c₂ hs =>
    obtain ⟨_, _, _, _, -, rfl⟩ := trySend_frame hs
    dsimp only at hw
    split at hw
    · obtain rfl := (Prod.mk.inj hw).1
      exact phase_closed _ _
    · obtain rfl := (Prod.mk.inj hw).1
      exact .reading h.isOpen rfl h.pipe (clean_reset _) h.cgi h.window

/-- Calls that are no marks and move no bytes leave the sums as they are. -/
theorem script_quiet {c c' : Conn} (calls : List Call) (h : Script c) (hq : Quiet calls)
    (hs : ∀ x ∈ calls, Call.isServe x = false) (htr : c'.tr = c.tr ++ calls)
    (hcgi : c'.r.cgi = c.r.cgi) : Script c' := by
  refine ⟨hcgi ▸ h.active, ?_, hcgi ▸ h.text⟩
  rw [hcgi, htr, sinceServe_append hs, accepted_append, pieces_append, hq.accepted, hq.pieces,
    List.append_nil, List.append_nil]
  exact h.relay

theorem writev_not_serve {calls : List Call} (h : ∀ x ∈ calls, ∃ bs, x = Call.writev bs) :
    ∀ x ∈ calls, Call.isServe x = false := by
  intro x hx
  obtain ⟨bs, rfl⟩ := h x hx
  rfl

/-- The loop of the writer keeps the sums. -/
theorem script_writer {c : Conn} (h : Script c) (answers : List (Ans Nat)) {c' : Conn}
    (htr : c'.tr = c.tr ++ (writerLoop c.r.cgi answers).2.1)
    (hcgi : c'.r.cgi = (writerLoop c.r.cgi answers).1) : Script c' := by
  have hspec := writerLoop_spec h.relay.writer answers
  have hps := (onlyWrites_nil hspec.onlyWrites).1
  have hactive : (writerLoop c.r.cgi answers).1.active = true := by
    obtain ⟨_, _, _, _, _, _, _, _, _, hfr⟩ := hspec.frame
    rw [hfr]
    exact h.active
  refine ⟨hcgi ▸ hactive, ?_, hcgi ▸ writerLoop_text h.relay.writer h.text answers⟩
  rw [hcgi, htr, sinceServe_append (writev_not_serve hspec.onlyWrites), accepted_append,
    pieces_append, hps, List.append_nil]
  exact writerLoop_relay h.relay answers

theorem writeCgi_phase {e : WriteEnv} {c c' : Conn} (hopen : c.isOpen = true)
    (hsock : c.sock = .off) (hpipe : c.pipe = .off) (hs : Script c)
    (hbuilt : c.r.cgi.headersDone = true) (hfd : c.r.cgi.eof = false → c.r.cgi.outFd ≠ none)
    (hw : writeCgi e c = (c', true)) : Phase c' ∧ c'.sock.waits .epollin = false := by
  have hoff : c.sock.waits .epollin = false := by
    rw [hsock]
    rfl
  have hspec := writerLoop_spec hs.relay.writer e.cgi
  have hscript : Script { c.emit (writerLoop c.r.cgi e.cgi).2.1 with
      r := { c.r with cgi := (writerLoop c.r.cgi e.cgi).1 } } := script_writer hs e.cgi rfl rfl
  obtain ⟨_, _, _, _, _, _, _, _, _, hfr⟩ := hspec.frame
  have hneed := hspec.needMore
  unfold writeCgi zvCgiOnClientWritable at hw
  rw [if_neg (by rw [hs.active]; exact fun hx => by cases hx)] at hw
  dsimp only at hw
  generalize writerLoop c.r.cgi e.cgi = res at hw hscript hfr hneed
  obtain ⟨cgi, calls, x⟩ := res
  dsimp only at hfr
  cases x with
  | finished =>
    obtain rfl := (Prod.mk.inj hw).1
    exact ⟨phase_closed _ _, rfl⟩
  | error =>
    obtain rfl := (Prod.mk.inj hw).1
    exact ⟨phase_closed _ _, rfl⟩
  | inCall => cases congrArg Prod.snd hw
  | wouldBlock =>
    obtain rfl := (Prod.mk.inj hw).1
    refine ⟨.cgiWriting hopen rfl hpipe ?_ (by rw [hfr]; exact hbuilt) (by rw [hfr]; exact hfd), rfl⟩
    exact script_quiet [.rearm .epollout, .addTimer c.r.requestTimeoutMs] hscript
      ⟨rfl, rfl, rfl⟩ (by simp [Call.isServe]) (List.append_assoc _ _ _) rfl
  | needMore =>
    obtain ⟨hb, he⟩ := hneed rfl
    dsimp only at hb he
    have hfd' : cgi.outFd ≠ none := by
      rw [hfr] at he ⊢
      exact hfd he
    dsimp only at hw
    rw [if_pos hfd'] at hw
    obtain rfl := (Prod.mk.inj hw).1
    have hfree : unsentChunk cgi = false := by simp [unsentChunk, hb]
    refine ⟨.cgiReading hopen hsock rfl ?_ hfd' hfree, hoff⟩
    exact script_quiet [.watchPipe, .addTimer c.r.requestTimeoutMs] hscript
      ⟨rfl, rfl, rfl⟩ (by simp [Call.isServe]) (List.append_assoc _ _ _) rfl

/-! ### `zv_cgi_on_stdout_ready` -/

theorem reader_not_serve {calls : List Call} {fd : Option Fd} {b : Bool}
    (h : others calls = if b then closeFd fd else []) : ∀ x ∈ calls, Call.isServe x = false := by
  intro x hx
  cases x with
  | serve q m =>
    have hmem : Call.serve q m ∈ others calls := List.mem_filter.mpr ⟨hx, rfl⟩
    rw [h] at hmem
    split at hmem
    · cases fd <;> simp [closeFd] at hmem
    · exact absurd hmem List.not_mem_nil
  | _ => rfl

theorem stdoutReady_phase {answers : List (Ans Bytes)} {reaped : Bool} {c c' : Conn}
    (hopen : c.isOpen = true) (hsock : c.sock = .off) (hpipe : c.pipe = .off) (hs : Script c)
    (hfd : c.r.cgi.outFd ≠ none) (hu : unsentChunk c.r.cgi = false)
    (h : zvCgiOnStdoutReady answers reaped c = (c', true)) :
    Phase c' ∧ c'.sock.waits .epollin = false := by
  have hs₀ : Script c.delTimer := script_quiet [.delTimer] hs ⟨rfl, rfl, rfl⟩
    (by simp [Call.isServe]) rfl rfl
  have hspec := readerLoop_spec hs₀.relay hfd answers
  unfold zvCgiOnStdoutReady at h
  rw [if_neg (by rw [hs.active]; simp [hfd])] at h
  dsimp only at h
  rcases hres : readerLoop c.delTimer.r.cgi answers with ⟨cgi, calls, e⟩
  rw [hres] at hspec h
  dsimp only at h
  generalize hc₁ : (if cgi.outFd = none then _ else _ : Conn) = c₁ at h
  have hc₁' : c₁.isOpen = true ∧ c₁.sock = .off ∧ c₁.pipe = .off ∧ c₁.r.cgi = cgi ∧
      c₁.tr = c.delTimer.tr ++ calls := by
    rw [← hc₁]
    split
    · exact ⟨hopen, hsock, rfl, rfl, rfl⟩
    · exact ⟨hopen, hsock, hpipe, rfl, rfl⟩
  obtain ⟨hopen₁, hsock₁, hpipe₁, hcgi₁, htr₁⟩ := hc₁'
  have hs₁ : Script c₁ := by
    refine ⟨by rw [hcgi₁]; exact hspec.active.trans hs.active, ?_, hcgi₁ ▸ hspec.text hs.text⟩
    rw [hcgi₁, htr₁, sinceServe_append (reader_not_serve hspec.others), accepted_append,
      pieces_append, hspec.silent, List.append_nil]
    exact hspec.relay
  cases e with
  | armClient =>
    obtain rfl := (Prod.mk.inj h).1
    have hbuilt : c₁.r.cgi.headersDone = true := hcgi₁ ▸ hspec.arms rfl
    refine ⟨.cgiWriting hopen₁ rfl hpipe₁ ?_ hbuilt ?_, rfl⟩
    · exact script_quiet [.rearm .epollout, .addTimer c₁.r.requestTimeoutMs] hs₁
        ⟨rfl, rfl, rfl⟩ (by simp [Call.isServe]) (List.append_assoc _ _ _) rfl
    · show c₁.r.cgi.eof = false → c₁.r.cgi.outFd ≠ none
      rw [hcgi₁]
      intro he
      rcases hspec.outFd with ⟨hfd', -⟩ | ⟨-, he', -⟩
      · rw [hfd']
        exact hfd
      · cases he'.symm.trans he
  | rearmPipe =>
    have hfd' : cgi.outFd ≠ none := by
      rcases hspec.outFd with ⟨hfd', -⟩ | ⟨-, -, hx⟩
      · rw [hfd']
        exact hfd
      · cases hx
    have hact : cgi.active = true := hspec.active.trans hs.active
    dsimp only at h
    rw [if_pos ⟨hact, hfd'⟩] at h
    obtain rfl := (Prod.mk.inj h).1
    have hfree : unsentChunk c₁.r.cgi = false := hcgi₁ ▸ hspec.free rfl hu
    have hoff : c₁.sock.waits .epollin = false := by
      rw [hsock₁]
      rfl
    refine ⟨.cgiReading hopen₁ hsock₁ rfl ?_ (hcgi₁.symm ▸ hfd') hfree, hoff⟩
    exact script_quiet [.watchPipe, .addTimer c₁.r.requestTimeoutMs] hs₁
      ⟨rfl, rfl, rfl⟩ (by simp [Call.isServe]) (List.append_assoc _ _ _) rfl
  | closeConn =>
    obtain rfl := (Prod.mk.inj h).1
    exact ⟨phase_closed _ _, rfl⟩
  | inCall => cases congrArg Prod.snd h

/-! ### Steps -/

theorem take_waits {g g' : Reg} {ev : Interest} (h : g.take = some g') (hw : g.waits ev = true) :
    g'.waits ev = true := by
  cases g with
  | off => cases h
  | fired _ => cases h
  | armed ev' =>
    obtain rfl := Option.some.inj h
    have hev : ev' = ev := by simpa [Reg.waits] using hw
    rw [hev]
    simp [Reg.waits]

/-- An event of the socket has found its phase. -/
theorem fired_waits {g : Reg} {ev ev' : Interest} (h : g = .fired ev) (hw : g.waits ev' = true) :
    ev' = ev := by
  rw [h] at hw
  have heq : ev = ev' := by simpa [Reg.waits] using hw
  exact heq.symm

theorem phase_write {c : Conn} (h : Phase c) (hf : c.sock = .fired .epollout) {e : WriteEnv}
    {c' : Conn} (hw : doWrite e { c with sock := .off } = (c', true)) : Phase c' := by
  unfold doWrite at hw
  cases h with
  | reading hopen hsock => cases fired_waits hf hsock
  | writing hopen hsock hpipe hout hcgi hwin =>
    have hact : ¬ c.r.cgi.active = true := by
      rw [noScript_active hcgi]
      exact fun hx => by cases hx
    have hin : Inside { c with sock := .off }.delTimer := ⟨hopen, rfl, hpipe, hcgi, hwin⟩
    exact writeStatic_phase hin ((if_neg hact).symm.trans hw)
  | cgiReading hopen hsock => cases hf.symm.trans hsock
  | cgiWriting hopen hsock hpipe hs hbuilt hfd =>
    have hs' : Script { c with sock := .off }.delTimer :=
      script_quiet [.delTimer] hs ⟨rfl, rfl, rfl⟩ (by simp [Call.isServe]) rfl rfl
    have hw' : writeCgi e { c with sock := .off }.delTimer = (c', true) :=
      (if_pos hs.active).symm.trans hw
    exact (writeCgi_phase (c := { c with sock := .off }.delTimer) hopen rfl hpipe hs' hbuilt hfd
      hw').1
  | closed hopen hsock => cases hf.symm.trans hsock

theorem connStep_phase {lib : Libc} {c c' : Conn} {a : ConnAct} (h : Phase c)
    (hstep : connStep lib c a = some c') : Phase c' := by
  cases connStep_cases hstep with
  | takeSocket g hg =>
    cases h with
    | reading hopen hsock hpipe hout hcgi hwin =>
      exact .reading hopen (take_waits hg hsock) hpipe hout hcgi hwin
    | writing hopen hsock hpipe hout hcgi hwin =>
      exact .writing hopen (take_waits hg hsock) hpipe hout hcgi hwin
    | cgiReading hopen hsock =>
      rw [hsock] at hg
      cases hg
    | cgiWriting hopen hsock hpipe hs hbuilt hfd =>
      exact .cgiWriting hopen (take_waits hg hsock) hpipe ⟨hs.active, hs.relay, hs.text⟩ hbuilt hfd
    | closed hopen hsock =>
      rw [hsock] at hg
      cases hg
  | takePipe g hg =>
    cases h with
    | cgiReading hopen hsock hpipe hs hfd hu =>
      exact .cgiReading hopen hsock (take_waits hg hpipe) ⟨hs.active, hs.relay, hs.text⟩ hfd hu
    | reading hopen hsock hpipe | writing hopen hsock hpipe | cgiWriting hopen hsock hpipe
    | closed hopen hsock hpipe =>
      rw [hpipe] at hg
      cases hg
  | request es _ hf hd =>
    cases h with
    | reading hopen hsock hpipe hout hcgi hwin =>
      exact doRequest_phase (c := { c with sock := .off }) ⟨⟨hopen, rfl, hpipe, hcgi, hwin⟩, hout⟩ hd
    | writing hopen hsock | cgiWriting hopen hsock => cases fired_waits hf hsock
    | cgiReading hopen hsock | closed hopen hsock => cases hf.symm.trans hsock
  | write e _ hf hd => exact phase_write h hf hd
  | stdout answers reaped _ hf hd =>
    cases h with
    | cgiReading hopen hsock hpipe hs hfd hu =>
      exact (stdoutReady_phase (c := { c with pipe := .off }) hopen hsock rfl
        ⟨hs.active, hs.relay, hs.text⟩ hfd hu hd).1
    | reading hopen hsock hpipe | writing hopen hsock hpipe | cgiWriting hopen hsock hpipe
    | closed hopen hsock hpipe => cases hf.symm.trans hpipe
  | hangup ev reaped hf => exact phase_closed _ _
  | expire reaped hopen => exact phase_closed _ _

/-- A closed connection makes no step. -/
theorem closed_stays {lib : Libc} {c c' : Conn} {a : ConnAct} (h : Phase c)
    (hc : c.isOpen = false) : connStep lib c a ≠ some c' := by
  intro hstep
  cases h with
  | reading hopen | writing hopen | cgiReading hopen | cgiWriting hopen =>
    cases hopen.symm.trans hc
  | closed hopen hsock hpipe =>
    cases connStep_cases hstep with
    | takeSocket g hg =>
      rw [hsock] at hg
      cases hg
    | takePipe g hg =>
      rw [hpipe] at hg
      cases hg
    | request es _ hf hd => cases hf.symm.trans hsock
    | write e _ hf hd => cases hf.symm.trans hsock
    | stdout answers reaped _ hf hd => cases hf.symm.trans hpipe
    | hangup ev reaped hf => cases hf.symm.trans hsock
    | expire reaped ho => cases ho.symm.trans hc

end ConnectionLemmas

open ConnectionLemmas

theorem phase_accept (old : Request) (fd : Fd) (cf : Conf) : Phase (acceptConn old fd cf) :=
  .reading rfl rfl rfl ⟨rfl, rfl, rfl, rfl, rfl⟩ ⟨old, fd, cf, rfl⟩ ⟨Nat.le_refl 0, Nat.zero_le _⟩

/-- In every state that a connection reaches it is in one of the phases. -/
theorem reached_phase {lib : Libc} {c : Conn} (h : Reached lib c) : Phase c := by
  obtain ⟨old, fd, cf, acts, hrun⟩ := h
  exact run_invariant (fun _ _ _ => connStep_phase) (phase_accept old fd cf) hrun

/-- A C library whose clock stands still. -/
def sampleLib : Libc where
  strftime _ := ascii "Thu, 01 Jan 1970 00:00:00 GMT"
  strftime_lt _ := by decide
  strftime_plain _ := by decide
  strptime _ _ := none

end Zaver
