import Zaver.Http
import Zaver.SendComplete

/-!
# What a pass of `do_request` can do

The branches of `answer` look different in the source and do few different things.
Every branch that gives a response prepares it and sends it (`deliver`); what it did
before is in `Prologue`. `answer_cases` is the list of the ends: no response could be
prepared, a prepared response was delivered, or a script was started.
-/

namespace Zaver

open CString

/-! ## Delivering a prepared response -/

/-- A prepared response is sent. After a page that is `last` the connection is closed in
any case; the other responses go through `request_done`. -/
def deliver (e : PassEnv) (last keepAlive : Bool) (c : Conn) : Conn × PassExit :=
  match c.trySend e.send with
  | (c, .fail) => (c.closeLabel e.reaped, .closed)
  | (c, .again) =>
    if last then (c.setWriting.waitOutput, .returned) else requestDone e keepAlive c.setWriting
  | (c, .done) =>
    if last then (c.closeLabel e.reaped, .closed) else requestDone e keepAlive c.reset
  | (c, .inCall) => (c, .inCall)

/-- The calls of a `zv_cgi_start` that failed. -/
inductive FailedStart : List Call → Prop
  | noPipe : FailedStart []
  | onePipe (a b : Fd) : FailedStart [.pipe a b, .close a, .close b]
  | noFork (a b c d : Fd) :
      FailedStart [.pipe a b, .pipe c d, .close a, .close b, .close c, .close d]
  | blocking (a b c d : Fd) (pid : Pid) (file : Bytes) (envp : List Bytes) :
      FailedStart [.pipe a b, .pipe c d, .fork pid file envp, .close a, .close d, .close b,
        .close c, .kill pid, .waitpid pid true]

/-- The calls between the parsers and the response. -/
inductive Lookup : List Call → Prop
  | direct : Lookup []
  | stat (file : Bytes) : Lookup [.stat file]
  | start (file : Bytes) (calls : List Call) :
      FailedStart calls → Lookup (.stat file :: calls)

/-- The header list is as it was, or emptied. -/
def SameInput (i i' : Input) : Prop := i' = i ∨ i' = { i with list := [] }

/-- What stands between a complete request and its response: `c₁` has an output with an
open file or none. -/
structure Prologue (c c₁ : Conn) (look : List Call) (file : Option (Bytes × Fd)) : Prop where
  input : SameInput c.r.inp c₁.r.inp
  lookup : Lookup look
  fileFd : c₁.r.out.outFileFd = file.map (·.2)
  frame : c₁ = { c with
    r := { c.r with inp := c₁.r.inp, out := c₁.r.out }
    tr := c.tr ++ .serve c.r.inp.served c.r.inp.method :: look ++ closeFd c.r.out.outFileFd ++
      (file.map fun f => Call.openFile f.1 f.2).toList }

/-- The connection on which a script runs. -/
def startedConn (c : Conn) (i : Input) (file : Bytes) (envp : List Bytes) (pid : Pid)
    (inR inW outR outW : Fd) : Conn :=
  { c with
    r := { c.r with
      inp := i, cgi := startedCgi c.r.cgi pid outR, out := { c.r.out with keepAlive := false } }
    pipe := .armed .epollin
    tr := c.tr ++ [.serve c.r.inp.served c.r.inp.method, .stat file, .pipe inR inW,
      .pipe outR outW, .fork pid file envp, .close inR, .close outW, .close inW, .watchPipe,
      .addTimer c.r.requestTimeoutMs] }

/-- The responses that `do_request` prepares: the error pages, and for a file either its
contents or the status 304. -/
inductive Composed (lib : Libc) : Output → Prop
  | error (page : ErrorPage) (keepAlive : Bool) (ms : Nat) (o : Output) :
      (page.errnum, page.shortmsg) ∈ errorStatuses →
      Composed lib (prepareError true page keepAlive ms o).1
  | static (openAns : Option Fd) (filename : Bytes) (filesize : UInt64) (out : HttpOut) (ms : Nat)
      (o : Output) :
      out.status = (if out.modified then 200 else 304) →
      (prepareStatic lib.strftime openAns filename filesize out ms o).2.2 = true →
      Composed lib (prepareStatic lib.strftime openAns filename filesize out ms o).1

theorem Composed.prepared {lib : Libc} {o : Output} (h : Composed lib o) : Prepared o := by
  cases h with
  | error page keepAlive ms o hst => exact .error page keepAlive ms o hst
  | static openAns filename filesize out ms o hst hok =>
    refine .static lib.strftime openAns filename filesize out ms o (lib.strftime_lt _) ?_ hok
    rw [hst]
    split <;> decide

/-- The ends of `answer`. -/
inductive Answered (lib : Libc) (e : PassEnv) (c : Conn) : Conn × PassExit → Prop
  | refused (c₁ : Conn) (look : List Call) :
      Prologue c c₁ look none → Answered lib e c (c₁.closeLabel e.reaped, .closed)
  | reply (c₁ : Conn) (look : List Call) (file : Option (Bytes × Fd)) (last : Bool) :
      Prologue c c₁ look file → Composed lib c₁.r.out →
      (last = true → c₁.r.out.keepAlive = false) →
      (last = false → ∃ file, look = [.stat file]) →
      Answered lib e c (deliver e last c₁.r.out.keepAlive c₁)
  | started (i : Input) (file : Bytes) (envp : List Bytes) (pid : Pid) (inR inW outR outW : Fd) :
      i = { c.r.inp with list := [] } → c.r.inp.method = .get →
      isCgiUri (c.r.inp.span c.r.inp.uriStart c.r.inp.uriEnd) = true →
      Answered lib e c (startedConn c i file envp pid inR inW outR outW, .returned)

/-- `c'` adds calls to the record of `c`, all of them `P`. -/
def Adds (P : Call → Bool) (c c' : Conn) : Prop :=
  ∃ calls, c'.tr = c.tr ++ calls ∧ ∀ x ∈ calls, P x = true

/-- The calls with which a response is sent and a connection without a script is closed. -/
def Call.isPlain : Call → Bool
  | .writev _ => true
  | .sendfile _ => true
  | .close _ => true
  | .rearm _ => true
  | .addTimer _ => true
  | .putDeferred => true
  | _ => false

namespace AnswerLemmas

/-! ### Calls -/

theorem adds_refl (P : Call → Bool) (c : Conn) : Adds P c c :=
  ⟨[], (List.append_nil _).symm, fun _ hx => absurd hx List.not_mem_nil⟩

theorem adds_trans {P : Call → Bool} {c c' c'' : Conn} (h : Adds P c c') (h' : Adds P c' c'') :
    Adds P c c'' := by
  obtain ⟨calls, heq, hall⟩ := h
  obtain ⟨calls', heq', hall'⟩ := h'
  refine ⟨calls ++ calls', by rw [heq', heq, List.append_assoc], fun x hx => ?_⟩
  cases List.mem_append.mp hx with
  | inl hx => exact hall x hx
  | inr hx => exact hall' x hx

theorem closeFd_plain (fd : Option Fd) : ∀ x ∈ closeFd fd, x.isPlain = true := by
  cases fd with
  | none => exact fun x hx => absurd hx List.not_mem_nil
  | some fd => simp [closeFd, Call.isPlain]

theorem reset_plain (c : Conn) : Adds Call.isPlain c c.reset :=
  ⟨closeFd c.r.out.outFileFd, rfl, closeFd_plain _⟩

theorem trySend_plain (e : SendEnv) (c : Conn) : Adds Call.isPlain c (c.trySend e).1 := by
  refine ⟨(trySend e c.r.out).2.1, rfl, fun x hx => ?_⟩
  have hsend := SendCompleteLemmas.trySend_sends e c.r.out x hx
  cases x with
  | writev bs => rfl
  | sendfile bs => rfl
  | _ => cases hsend

theorem waitOutput_plain (c : Conn) : Adds Call.isPlain c c.setWriting.waitOutput :=
  ⟨[.rearm .epollout, .addTimer c.r.requestTimeoutMs], List.append_assoc _ _ _,
    by simp [Call.isPlain]⟩

theorem closeConn_plain {c : Conn} (h : c.r.cgi.active = false) (reaped : Bool) :
    Adds Call.isPlain c (zvHttpCloseConn reaped c) := by
  refine ⟨closeFd c.r.out.outFileFd ++ [] ++ closeFd c.r.fd ++ [.putDeferred], ?_, ?_⟩
  · simp [zvHttpCloseConn, zvFreeRequestT, freeCgi, h, Conn.emit]
  · intro x hx
    simp only [List.append_nil, List.mem_append, List.mem_singleton] at hx
    rcases hx with (hx | hx) | rfl
    · exact closeFd_plain _ x hx
    · exact closeFd_plain _ x hx
    · rfl

theorem closeLabel_plain {c : Conn} (h : c.r.cgi.active = false) (reaped : Bool) :
    Adds Call.isPlain c (c.closeLabel reaped) :=
  adds_trans (reset_plain c) (closeConn_plain (c := c.reset) h reaped)

theorem requestDone_plain {c : Conn} (h : c.r.cgi.active = false) (e : PassEnv)
    (keepAlive : Bool) : Adds Call.isPlain c (requestDone e keepAlive c).1 := by
  unfold requestDone
  split
  · exact closeLabel_plain h e.reaped
  · dsimp only
    split
    · exact ⟨[.rearm .epollout, .addTimer c.r.requestTimeoutMs], List.append_assoc _ _ _,
        by simp [Call.isPlain]⟩
    · split
      · exact closeLabel_plain (c := { c with r := { c.r with inp := c.r.inp.nextRequest } }) h
          e.reaped
      · exact adds_refl _ _

theorem deliver_plain {c : Conn} (h : c.r.cgi.active = false) (e : PassEnv)
    (last keepAlive : Bool) : Adds Call.isPlain c (deliver e last keepAlive c).1 := by
  have hsend := trySend_plain e.send c
  have hcgi : (c.trySend e.send).1.r.cgi.active = false := h
  unfold deliver
  generalize c.trySend e.send = res at hsend hcgi ⊢
  obtain ⟨c₂, rc⟩ := res
  refine adds_trans hsend ?_
  cases rc with
  | fail => exact closeLabel_plain hcgi e.reaped
  | inCall => exact adds_refl _ _
  | again =>
    dsimp only
    split
    · exact waitOutput_plain c₂
    · exact requestDone_plain (c := c₂.setWriting) hcgi e keepAlive
  | done =>
    dsimp only
    split
    · exact closeLabel_plain hcgi e.reaped
    · exact adds_trans (reset_plain c₂) (requestDone_plain (c := c₂.reset) hcgi e keepAlive)

theorem replyAndClose_plain (e : PassEnv) (page : ErrorPage) (c : Conn) :
    Adds Call.isPlain c (replyAndClose e page c).1 := by
  have hprep : Adds Call.isPlain c (c.prepareError e.malloc page false).1 := by
    refine ⟨closeFd c.r.out.outFileFd, ?_, closeFd_plain _⟩
    cases e.malloc with
    | false => rfl
    | true => rfl
  unfold replyAndClose
  generalize c.prepareError e.malloc page false = res at hprep ⊢
  obtain ⟨c₁, ok⟩ := res
  cases ok with
  | false => exact hprep
  | true =>
    have hsend := adds_trans hprep (trySend_plain e.send c₁)
    dsimp only at hsend ⊢
    generalize c₁.trySend e.send = res at hsend ⊢
    obtain ⟨c₂, rc⟩ := res
    cases rc with
    | fail => exact hsend
    | done => exact hsend
    | inCall => exact hsend
    | again => exact adds_trans hsend (waitOutput_plain c₂)

theorem writeStatic_plain {e : WriteEnv} {c : Conn} (h : c.r.cgi.active = false) :
    Adds Call.isPlain c (writeStatic e c).1 := by
  have hsend := trySend_plain e.send c
  have hcgi : (c.trySend e.send).1.r.cgi.active = false := h
  unfold writeStatic
  generalize c.trySend e.send = res at hsend hcgi ⊢
  obtain ⟨c₂, rc⟩ := res
  refine adds_trans hsend ?_
  cases rc with
  | again => exact waitOutput_plain c₂
  | fail => exact closeLabel_plain hcgi e.reapedFree
  | inCall => exact adds_refl _ _
  | done =>
    dsimp only
    split
    · exact adds_trans (reset_plain c₂) (closeConn_plain (c := c₂.reset) hcgi e.reapedFree)
    · refine adds_trans (reset_plain c₂)
        ⟨[.rearm .epollin, .addTimer c₂.r.keepAliveTimeoutMs], List.append_assoc _ _ _, ?_⟩
      simp [Call.isPlain]

/-! ### Before the response -/

/-- What was done before a response is prepared. -/
structure Asked (c c₀ : Conn) (look : List Call) : Prop where
  input : SameInput c.r.inp c₀.r.inp
  lookup : Lookup look
  frame : c₀ = { c with
    r := { c.r with inp := c₀.r.inp }
    tr := c.tr ++ .serve c.r.inp.served c.r.inp.method :: look }

theorem Asked.out {c c₀ : Conn} {look : List Call} (h : Asked c c₀ look) :
    c₀.r.out = c.r.out := by
  rw [h.frame]

theorem reset_reset (c : Conn) : c.reset.reset = c.reset := by
  have hw : (c.r.out.outHeader.write 0 [0]).write 0 [0] = c.r.out.outHeader.write 0 [0] := by
    funext j
    cases j with
    | zero => rfl
    | succ j => rfl
  simp [Conn.reset, resetOutput, closeFd, Conn.emit, hw]

/-- A response is prepared over an output that may still hold a file. -/
theorem Asked.prologue {c c₀ : Conn} {look : List Call} (h : Asked c c₀ look) {o : Output}
    {file : Option (Bytes × Fd)} {calls : List Call} (hfd : o.outFileFd = file.map (·.2))
    (hcalls : calls = closeFd c₀.r.out.outFileFd ++
      (file.map fun f => Call.openFile f.1 f.2).toList) :
    Prologue c { c₀ with r := { c₀.r with out := o }, tr := c₀.tr ++ calls } look file := by
  refine ⟨h.input, h.lookup, hfd, ?_⟩
  rw [hcalls, h.frame]
  simp

theorem prepareError_prologue (lib : Libc) {c c₀ c₁ : Conn} {look : List Call} (h : Asked c c₀ look)
    {malloc keepAlive ok : Bool} {page : ErrorPage}
    (hp : c₀.prepareError malloc page keepAlive = (c₁, ok)) :
    Prologue c c₁ look none ∧ c₁.r.out.keepAlive = keepAlive ∧
      (ok = true → (page.errnum, page.shortmsg) ∈ errorStatuses → Composed lib c₁.r.out) := by
  have hcalls : closeFd c₀.r.out.outFileFd = closeFd c₀.r.out.outFileFd ++ [] :=
    (List.append_nil _).symm
  cases malloc with
  | false =>
    obtain ⟨rfl, rfl⟩ := Prod.mk.inj hp
    exact ⟨h.prologue rfl hcalls, rfl, fun hx => by cases hx⟩
  | true =>
    obtain ⟨rfl, rfl⟩ := Prod.mk.inj hp
    exact ⟨h.prologue rfl hcalls, rfl, fun _ hst => .error page keepAlive _ _ hst⟩

theorem prepareStatic_prologue {lib : Libc} {c c₀ c₁ : Conn} {look : List Call}
    (h : Asked c c₀ look) {openAns : Option Fd} {filename : Bytes} {filesize : UInt64}
    {out : HttpOut} {ok : Bool}
    (hstatus : out.status = if out.modified then 200 else 304)
    (hp : c₀.prepareStatic lib openAns filename filesize out = (c₁, ok)) :
    c₁.r.out.keepAlive = out.keepAlive ∧
      (ok = false → Prologue c c₁ look none) ∧
      (ok = true → (∃ file, Prologue c c₁ look file) ∧ Composed lib c₁.r.out) := by
  have hcalls : closeFd c₀.r.out.outFileFd = closeFd c₀.r.out.outFileFd ++ [] :=
    (List.append_nil _).symm
  have hprep : (prepareStatic lib.strftime openAns filename filesize out c₀.r.keepAliveTimeoutMs
      c₀.r.out).2.2 = true → Composed lib (prepareStatic lib.strftime openAns filename filesize out
      c₀.r.keepAliveTimeoutMs c₀.r.out).1 :=
    .static openAns filename filesize out _ _ hstatus
  obtain ⟨rfl, rfl⟩ := Prod.mk.inj hp
  cases hm : out.modified with
  | false =>
    simp only [prepareStatic, hm] at hprep ⊢
    exact ⟨rfl, (fun hx => by cases hx), fun _ => ⟨⟨none, h.prologue rfl hcalls⟩, hprep rfl⟩⟩
  | true =>
    cases openAns with
    | none =>
      simp only [prepareStatic, hm] at hprep ⊢
      exact ⟨rfl, fun _ => h.prologue rfl hcalls, fun hx => by cases hx⟩
    | some fd =>
      simp only [prepareStatic, hm] at hprep ⊢
      exact ⟨rfl, (fun hx => by cases hx),
        fun _ => ⟨⟨some (filename, fd), h.prologue rfl rfl⟩, hprep rfl⟩⟩

/-! ### The branches -/

theorem status_bad_request : (ascii "400", ascii "Bad Request") ∈ errorStatuses := by decide

theorem status_not_found : (ascii "404", ascii "Not Found") ∈ errorStatuses := by decide

theorem status_forbidden : (ascii "403", ascii "Forbidden") ∈ errorStatuses := by decide

/-- What `answer` does with the return value of `handle_cgi_mvp`. -/
def finishClosing (reaped : Bool) : Conn × CgiRc → Conn × PassExit
  | (c, .returned) => (c, .returned)
  | (c, .inCall) => (c, .inCall)
  | (c, _) => (c.closeLabel reaped, .closed)

theorem replyAndClose_ne_not (e : PassEnv) (page : ErrorPage) (c : Conn) :
    (replyAndClose e page c).2 ≠ .not := by
  unfold replyAndClose
  split
  · exact fun hx => by cases hx
  · split <;> exact fun hx => by cases hx

theorem replyAndClose_answered {lib : Libc} {e : PassEnv} {page : ErrorPage} {c c₀ : Conn}
    {look : List Call} (h : Asked c c₀ look)
    (hst : (page.errnum, page.shortmsg) ∈ errorStatuses) :
    Answered lib e c (finishClosing e.reaped (replyAndClose e page c₀)) := by
  unfold replyAndClose
  split
  · next c₁ hp =>
    obtain ⟨hpro, -, -⟩ := prepareError_prologue lib h hp
    exact .refused c₁ look hpro
  · next c₁ hp =>
    obtain ⟨hpro, hka, hprep⟩ := prepareError_prologue lib h hp
    have hans : Answered lib e c (deliver e true c₁.r.out.keepAlive c₁) :=
      .reply c₁ look none true hpro (hprep rfl hst) (fun _ => hka) fun hx => by cases hx
    unfold deliver at hans
    generalize c₁.trySend e.send = res at hans ⊢
    obtain ⟨c₂, rc⟩ := res
    cases rc with
    | done => exact hans
    | again => exact hans
    | fail => exact hans
    | inCall => exact hans

theorem replyPage_answered {lib : Libc} {e : PassEnv} {page : ErrorPage} {keepAlive : Bool}
    {c c₀ : Conn} {file : Bytes} (h : Asked c c₀ [.stat file])
    (hst : (page.errnum, page.shortmsg) ∈ errorStatuses) :
    Answered lib e c (replyPage e page keepAlive c₀) := by
  unfold replyPage
  split
  · next c₁ hp =>
    obtain ⟨hpro, -, -⟩ := prepareError_prologue lib h hp
    exact .refused c₁ [.stat file] hpro
  · next c₁ hp =>
    obtain ⟨hpro, hka, hprep⟩ := prepareError_prologue lib h hp
    have hans : Answered lib e c (deliver e false c₁.r.out.keepAlive c₁) :=
      .reply c₁ [.stat file] none false hpro (hprep rfl hst) (fun hx => by cases hx)
        fun _ => ⟨file, rfl⟩
    rw [hka] at hans
    exact hans

theorem zvCgiStart_cases (e : CgiStartEnv) (file name : Bytes) (query : Option Bytes) (c : Conn) :
    (∃ calls, FailedStart calls ∧ zvCgiStart e file name query c = (c.emit calls, false)) ∨
      ∃ inR inW outR outW pid, e.inPipe = some (inR, inW) ∧ e.outPipe = some (outR, outW) ∧
        e.fork = some pid ∧ zvCgiStart e file name query c =
        ({ c with
            r := { c.r with
              cgi := startedCgi c.r.cgi pid outR, out := { c.r.out with keepAlive := false } }
            pipe := .armed .epollin
            tr := c.tr ++ [.pipe inR inW, .pipe outR outW, .fork pid file (cgiEnvp file name query),
              .close inR, .close outW, .close inW, .watchPipe, .addTimer c.r.requestTimeoutMs] },
          true) := by
  unfold zvCgiStart
  split
  · exact .inl ⟨[], .noPipe, by simp [Conn.emit]⟩
  · next inR inW hin =>
    split
    · exact .inl ⟨_, .onePipe inR inW, by simp [Conn.emit]⟩
    · next outR outW hout =>
      split
      · exact .inl ⟨_, .noFork inR inW outR outW, by simp [Conn.emit]⟩
      · next pid hpid =>
        split
        · exact .inl ⟨_, .blocking inR inW outR outW pid file (cgiEnvp file name query),
            by simp [Conn.emit]⟩
        · exact .inr ⟨inR, inW, outR, outW, pid, hin, hout, hpid,
            by simp [Conn.emit, Conn.watchPipe, Conn.addTimer]⟩

/-- The state behind the label that hands a request over, with its headers consumed. -/
theorem asked_emptied (c : Conn) :
    Asked c
      { c.emit [.serve c.r.inp.served c.r.inp.method] with
        r := { c.r with inp := { c.r.inp with list := [] } } } [] :=
  ⟨.inr rfl, .direct, rfl⟩

theorem Asked.stat {c c₀ : Conn} (h : Asked c c₀ []) (file : Bytes) :
    Asked c (c₀.emit [.stat file]) [.stat file] := by
  refine ⟨h.input, .stat file, ?_⟩
  rw [h.frame]
  simp [Conn.emit]

theorem Asked.start {c c₀ : Conn} {file : Bytes} (h : Asked c c₀ [.stat file]) {calls : List Call}
    (hc : FailedStart calls) : Asked c (c₀.emit calls) (.stat file :: calls) := by
  refine ⟨h.input, .start file calls hc, ?_⟩
  rw [h.frame]
  simp [Conn.emit]

theorem startScript_ne_not (e : PassEnv) (file : Bytes) (c : Conn) :
    (startScript e file c).2 ≠ .not := by
  unfold startScript
  dsimp only
  split
  · exact replyAndClose_ne_not _ _ _
  · split
    · exact replyAndClose_ne_not _ _ _
    · split
      · exact replyAndClose_ne_not _ _ _
      · split
        · exact fun hx => by cases hx
        · exact replyAndClose_ne_not _ _ _

theorem startScript_answered {lib : Libc} {e : PassEnv} {file : Bytes} {c c₀ : Conn}
    (h : Asked c c₀ []) (hi : c₀.r.inp = { c.r.inp with list := [] })
    (hm : c.r.inp.method = .get)
    (hu : isCgiUri (c.r.inp.span c.r.inp.uriStart c.r.inp.uriEnd) = true) :
    Answered lib e c (finishClosing e.reaped (startScript e file c₀)) := by
  have hst := h.stat file
  unfold startScript
  dsimp only
  split
  · exact replyAndClose_answered hst status_not_found
  · split
    · exact replyAndClose_answered hst status_not_found
    · split
      · exact replyAndClose_answered hst status_forbidden
      · generalize uriPath _ = name, cgiQueryString _ = query
        rcases zvCgiStart_cases e.start file name query (c₀.emit [.stat file]) with
          ⟨calls, hfail, heq⟩ | ⟨inR, inW, outR, outW, pid, -, -, -, heq⟩
        · rw [heq]
          exact replyAndClose_answered (hst.start hfail) (by decide)
        · rw [heq]
          have hans : Answered lib e c (startedConn c c₀.r.inp file (cgiEnvp file name query) pid
              inR inW outR outW, .returned) :=
            .started c₀.r.inp file _ pid inR inW outR outW hi hm hu
          have hconn : startedConn c c₀.r.inp file (cgiEnvp file name query) pid inR inW outR outW =
              { c₀.emit [.stat file] with
                r := { c₀.r with
                  cgi := startedCgi c₀.r.cgi pid outR, out := { c₀.r.out with keepAlive := false } }
                pipe := .armed .epollin
                tr := (c₀.emit [.stat file]).tr ++ [.pipe inR inW, .pipe outR outW,
                  .fork pid file (cgiEnvp file name query), .close inR, .close outW, .close inW,
                  .watchPipe, .addTimer c₀.r.requestTimeoutMs] } := by
            rw [h.frame]
            simp [startedConn, Conn.emit]
          rw [hconn] at hans
          exact hans

theorem cgiFilename_status {root : Option Bytes} {uri : Bytes} {cap : Nat} {page : ErrorPage}
    (h : cgiFilename root uri cap = .error page) :
    (page.errnum, page.shortmsg) ∈ errorStatuses := by
  unfold cgiFilename at h
  split at h
  · obtain rfl := Except.error.inj h
    decide
  · split at h
    · obtain rfl := Except.error.inj h
      decide
    · split at h
      · obtain rfl := Except.error.inj h
        decide
      · split at h
        · obtain rfl := Except.error.inj h
          decide
        · split at h
          · obtain rfl := Except.error.inj h
            decide
          · cases h

/-- `handle_cgi_mvp` leaves a request alone, or it answers it. -/
theorem handleCgiMvp_answered (lib : Libc) (e : PassEnv) (c : Conn) :
    let c₀ := c.emit [.serve c.r.inp.served c.r.inp.method]
    handleCgiMvp e c₀ = (c₀, .not) ∨
      (Answered lib e c (finishClosing e.reaped (handleCgiMvp e c₀)) ∧ (handleCgiMvp e c₀).2 ≠ .not) := by
  intro c₀
  have h₀ : Asked c c₀ [] := ⟨.inl rfl, .direct, rfl⟩
  unfold handleCgiMvp
  split
  · exact .inl rfl
  · dsimp only
    split
    · exact .inl rfl
    · next hu =>
      split
      · exact .inr ⟨replyAndClose_answered h₀ (by decide), replyAndClose_ne_not _ _ _⟩
      · next hm =>
        have hu' : isCgiUri (c.r.inp.span c.r.inp.uriStart c.r.inp.uriEnd) = true :=
          Bool.eq_true_of_not_eq_false hu
        split
        · next page hpage =>
          exact .inr ⟨replyAndClose_answered (asked_emptied c) (cgiFilename_status hpage),
            replyAndClose_ne_not _ _ _⟩
        · next file hfile =>
          exact .inr ⟨startScript_answered (asked_emptied c) rfl (Decidable.not_not.mp hm) hu',
            startScript_ne_not _ _ _⟩

theorem replyInvalidUri_answered (lib : Libc) (e : PassEnv) (c : Conn) :
    Answered lib e c (replyInvalidUri e (c.emit [.serve c.r.inp.served c.r.inp.method])) := by
  have hasked : Asked c (c.emit [.serve c.r.inp.served c.r.inp.method]) [] :=
    ⟨.inl rfl, .direct, rfl⟩
  have hpage : ∀ page : ErrorPage, (page.errnum, page.shortmsg) ∈ errorStatuses →
      Answered lib e c (finishClosing e.reaped (replyAndClose e page
        (c.emit [.serve c.r.inp.served c.r.inp.method]))) :=
    fun page hst => replyAndClose_answered hasked hst
  have hans := hpage
    ⟨ascii "invalid uri", ascii "400", ascii "Bad Request", ascii "invalid uri"⟩ status_bad_request
  unfold replyInvalidUri
  split
  · next c₁ heq =>
    rw [heq] at hans
    exact hans
  · next c₁ heq =>
    rw [heq] at hans
    rw [Conn.closeLabel, reset_reset]
    exact hans
  · next c₁ heq =>
    rw [heq] at hans
    exact hans
  · next c₁ rc hr hc hi heq =>
    rw [heq] at hans
    cases rc with
    | not => exact hans
    | error => exact hans
    | returned => exact absurd rfl hr
    | close => exact absurd rfl hc
    | inCall => exact absurd rfl hi

/-- The status 304 is set together with the flag that leaves the file out. -/
def StatusOk (o : HttpOut) : Prop := o.status = if o.modified then 0 else 304

theorem handleOne_status (lib : Libc) (isdst : Header → Int) (i : Input) {o : HttpOut}
    (h : StatusOk o) (hd : Header) : StatusOk (handleOne lib isdst i o hd) := by
  unfold handleOne
  dsimp only
  split
  · unfold zvHttpProcessConnection
    split
    · exact h
    · split
      · exact h
      · exact h
  · unfold zvHttpProcessIfModifiedSince
    split
    · exact h
    · split
      · exact rfl
      · exact h
  · exact h

theorem handleHeader_status (lib : Libc) (isdst : Header → Int) (i : Input) {o : HttpOut}
    (h : StatusOk o) : StatusOk (zvHttpHandleHeader lib isdst i o) := by
  unfold zvHttpHandleHeader
  have h' : StatusOk { o with keepAlive := defaultKeepAlive i } := h
  generalize ({ o with keepAlive := defaultKeepAlive i } : HttpOut) = o' at h' ⊢
  induction i.list generalizing o' with
  | nil => exact h'
  | cons hd l ih => exact ih _ (handleOne_status lib isdst i h' hd)

theorem fresh_status (lib : Libc) (e : PassEnv) (i : Input) :
    StatusOk (zvHttpHandleHeader lib e.tmIsdst i
      (zvInitOutT { keepAlive := false, mtime := e.outMtime, modified := false, status := 0 })) :=
  handleHeader_status lib e.tmIsdst i (by rfl)

theorem final_status {o : HttpOut} (h : StatusOk o) :
    (if o.status = 0 then 200 else o.status) = if o.modified then 200 else 304 := by
  rw [show o.status = _ from h]
  split <;> rfl

theorem serveFile_answered (lib : Libc) (e : PassEnv) (file : Bytes) (c : Conn) :
    Answered lib e c (serveFile lib e file (c.emit [.serve c.r.inp.served c.r.inp.method])) := by
  have h₀ := (asked_emptied c).stat file
  unfold serveFile
  dsimp only
  split
  · exact replyPage_answered h₀ status_not_found
  · next sb hsb =>
    split
    · exact replyPage_answered h₀ status_forbidden
    · split
      · exact replyPage_answered h₀ status_forbidden
      · split
        · next c₁ hp =>
          obtain ⟨-, hno, -⟩ := prepareStatic_prologue h₀ (final_status (fresh_status lib e _)) hp
          exact .refused c₁ _ (hno rfl)
        · next c₁ hp =>
          obtain ⟨hka, -, hyes⟩ := prepareStatic_prologue h₀ (final_status (fresh_status lib e _)) hp
          obtain ⟨⟨f, hpro⟩, hcomp⟩ := hyes rfl
          have hans : Answered lib e c (deliver e false c₁.r.out.keepAlive c₁) :=
            .reply c₁ _ f false hpro hcomp (fun hx => by cases hx) fun _ => ⟨file, rfl⟩
          rw [hka] at hans
          exact hans

end AnswerLemmas

open AnswerLemmas

/-- What the answer to a complete request can be. -/
theorem answer_cases (lib : Libc) (e : PassEnv) (c : Conn) :
    Answered lib e c (answer lib e c) := by
  unfold answer
  dsimp only
  rcases handleCgiMvp_answered lib e c with hnot | ⟨hans, hne⟩
  · rw [hnot]
    dsimp only
    split
    · exact replyInvalidUri_answered lib e c
    · next file hfile => exact serveFile_answered lib e file c
  · split
    · next c₁ heq =>
      rw [heq] at hans
      exact hans
    · next c₁ heq =>
      rw [heq] at hans
      exact hans
    · next c₁ heq =>
      rw [heq] at hans
      exact hans
    · next c₁ heq =>
      rw [heq] at hans
      exact hans
    · next c₁ heq =>
      rw [heq] at hne
      exact absurd rfl hne

end Zaver
