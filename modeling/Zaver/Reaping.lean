import Zaver.Connection

/-!
# The life of a CGI child

The record of a connection tells what was done with processes: a script is forked, and
when its connection ends it is killed and waited for without blocking; after the last
chunk it is waited for as well. `ChildLog` lists what the record can look like at any
time, and the two theorems read off it when a child is signalled after it was reaped
(`no_kill_after_reap_iff`), and when it is forgotten without having been reaped
(`child_reaped_iff`).
-/

namespace Zaver

open CString Runs ConnectionLemmas AnswerLemmas SendCompleteLemmas CgiReaderLemmas ChunkWriterLemmas

/-! ## What the record says about processes -/

/-- A call on a process. -/
def Call.isProc : Call → Bool
  | .fork _ _ _ => true
  | .kill _ => true
  | .waitpid _ _ => true
  | _ => false

/-- The calls on processes. -/
def procs (tr : List Call) : List Call := tr.filter Call.isProc

/-- The step closes a connection on which a script runs. -/
def closesScript (c : Conn) : ConnAct → Bool
  | .write e =>
    (writerLoop c.r.cgi e.cgi).2.2 = .finished ∨ (writerLoop c.r.cgi e.cgi).2.2 = .error
  | .stdout answers _ => (readerLoop c.r.cgi answers).2.2 = .closeConn
  | .hangup _ => true
  | .expire _ => true
  | _ => false

/-- The calls on the child when it does. -/
def teardown (pid : Pid) (c : Conn) : ConnAct → List Call
  | .write e =>
    (if (writerLoop c.r.cgi e.cgi).2.2 = .finished then [.waitpid pid e.reapedWrite] else []) ++
      [.kill pid, .waitpid pid e.reapedFree]
  | .stdout _ reaped => [.kill pid, .waitpid pid reaped]
  | .hangup reaped => [.kill pid, .waitpid pid reaped]
  | .expire reaped => [.kill pid, .waitpid pid reaped]
  | _ => []

namespace ReapingLemmas

@[simp] theorem procs_nil : procs [] = [] := rfl

@[simp] theorem procs_append (t u : List Call) : procs (t ++ u) = procs t ++ procs u :=
  List.filter_append _ _

theorem procs_plain {c c' : Conn} (h : Adds Call.isPlain c c') : procs c'.tr = procs c.tr := by
  obtain ⟨calls, heq, hplain⟩ := h
  have hnone : procs calls = [] := by
    refine List.filter_eq_nil_iff.mpr fun x hx => ?_
    have hp := hplain x hx
    cases x with
    | fork _ _ _ | kill _ | waitpid _ _ => cases hp
    | _ => exact fun hx => by cases hx
  rw [heq, procs_append, hnone, List.append_nil]

@[simp] theorem procs_closeFd (fd : Option Fd) : procs (closeFd fd) = [] := by
  cases fd <;> rfl

theorem procs_closeConn {c : Conn} {pid : Pid} (hact : c.r.cgi.active = true)
    (hpid : c.r.cgi.pid = some pid) (reaped : Bool) :
    procs (zvHttpCloseConn reaped c).tr =
      procs c.tr ++ [.kill pid, .waitpid pid reaped] := by
  have htr : (zvHttpCloseConn reaped c).tr = c.tr ++ (closeFd c.r.out.outFileFd ++
      ([.kill pid, .waitpid pid reaped] ++ closeFd c.r.cgi.outFd) ++ closeFd c.r.fd ++
      [.putDeferred]) := by
    simp [zvHttpCloseConn, zvFreeRequestT, freeCgi, hact, hpid, Conn.emit]
  rw [htr]
  simp only [procs_append, procs_closeFd, List.append_nil, List.nil_append]
  rfl

/-! ### A running script -/

theorem stdout_running {answers : List (Ans Bytes)} {reaped : Bool} {c c' : Conn} {pid : Pid}
    (hs : Script c) (hfd : c.r.cgi.outFd ≠ none) (hpid : c.r.cgi.pid = some pid)
    (h : zvCgiOnStdoutReady answers reaped c = (c', true)) :
    if (readerLoop c.r.cgi answers).2.2 = .closeConn then
      c'.isOpen = false ∧ procs c'.tr = procs c.tr ++ [.kill pid, .waitpid pid reaped]
    else c'.r.cgi.active = true ∧ c'.r.cgi.pid = some pid ∧ procs c'.tr = procs c.tr := by
  have hspec := readerLoop_spec hs.relay hfd answers
  unfold zvCgiOnStdoutReady at h
  rw [if_neg (by rw [hs.active]; simp [hfd])] at h
  dsimp only at h
  have hcgi₀ : c.delTimer.r.cgi = c.r.cgi := rfl
  rw [hcgi₀] at h
  rcases hres : readerLoop c.r.cgi answers with ⟨cgi, calls, e⟩
  rw [hres] at hspec h
  dsimp only at h
  generalize hc₁ : (if cgi.outFd = none then _ else _ : Conn) = c₁ at h
  have hcgi₁ : c₁.r.cgi = cgi := by
    rw [← hc₁]
    split <;> rfl
  have hact₁ : c₁.r.cgi.active = true := by
    rw [hcgi₁]
    exact hspec.active.trans hs.active
  have hpid₁ : c₁.r.cgi.pid = some pid := by
    rw [hcgi₁]
    exact hspec.pid.trans hpid
  have hlog₁ : procs c₁.tr = procs c.tr := by
    have htr : c₁.tr = c.tr ++ [.delTimer] ++ calls := by
      rw [← hc₁]
      split <;> rfl
    have hcalls : procs calls = [] := by
      refine List.filter_eq_nil_iff.mpr fun x hx hp => ?_
      have hmem : x ∈ others calls := by
        refine List.mem_filter.mpr ⟨hx, ?_⟩
        cases x <;> first | rfl | cases hp
      rw [hspec.others] at hmem
      split at hmem
      · cases hfd' : c.r.cgi.outFd with
        | none => exact hfd hfd'
        | some fd =>
          rw [hfd'] at hmem
          obtain rfl := List.mem_singleton.mp hmem
          cases hp
      · exact absurd hmem List.not_mem_nil
    rw [htr, procs_append, procs_append, hcalls, List.append_nil]
    exact List.append_nil _
  cases e with
  | armClient =>
    obtain rfl := (Prod.mk.inj h).1
    refine ⟨hact₁, hpid₁, ?_⟩
    rw [← hlog₁]
    simp [Conn.rearmEvent, Conn.addTimer, Conn.emit, procs, Call.isProc]
  | rearmPipe =>
    obtain rfl := (Prod.mk.inj h).1
    rw [if_neg (fun hx => by cases hx)]
    split
    · refine ⟨hact₁, hpid₁, ?_⟩
      rw [← hlog₁]
      simp [Conn.watchPipe, Conn.addTimer, Conn.emit, procs, Call.isProc]
    · refine ⟨hact₁, hpid₁, ?_⟩
      rw [← hlog₁]
      simp [Conn.addTimer, Conn.emit, procs, Call.isProc]
  | closeConn =>
    obtain rfl := (Prod.mk.inj h).1
    rw [if_pos rfl]
    exact ⟨rfl, by rw [procs_closeConn hact₁ hpid₁, hlog₁]⟩
  | inCall => cases congrArg Prod.snd h

theorem write_running {e : WriteEnv} {c c' : Conn} {pid : Pid} (hs : Script c)
    (hpid : c.r.cgi.pid = some pid) (h : writeCgi e c = (c', true)) :
    if (writerLoop c.r.cgi e.cgi).2.2 = .finished ∨ (writerLoop c.r.cgi e.cgi).2.2 = .error then
      c'.isOpen = false ∧ procs c'.tr = procs c.tr ++ teardown pid c (.write e)
    else c'.r.cgi.active = true ∧ c'.r.cgi.pid = some pid ∧ procs c'.tr = procs c.tr := by
  have hspec := writerLoop_spec hs.relay.writer e.cgi
  obtain ⟨_, _, _, _, _, _, _, _, _, hfr⟩ := hspec.frame
  have honly := hspec.onlyWrites
  unfold writeCgi zvCgiOnClientWritable at h
  simp only [teardown]
  rw [if_neg (by rw [hs.active]; exact fun hx => by cases hx)] at h
  dsimp only at h
  generalize writerLoop c.r.cgi e.cgi = res at h hfr honly ⊢
  obtain ⟨cgi, calls, x⟩ := res
  dsimp only at hfr honly
  have hact : cgi.active = true := by
    rw [hfr]
    exact hs.active
  have hpid' : cgi.pid = some pid := by
    rw [hfr]
    exact hpid
  have hcalls : procs calls = [] := by
    refine List.filter_eq_nil_iff.mpr fun x hx => ?_
    obtain ⟨bs, rfl⟩ := honly x hx
    exact fun hx => by cases hx
  cases x with
  | finished =>
    dsimp only at h
    rw [hpid'] at h
    obtain rfl := (Prod.mk.inj h).1
    rw [if_pos (.inl rfl), if_pos rfl]
    refine ⟨rfl, ?_⟩
    rw [procs_closeConn hact hpid']
    simp [Conn.emit, hcalls]
    rfl
  | error =>
    obtain rfl := (Prod.mk.inj h).1
    rw [if_pos (.inr rfl), if_neg (fun hx => by cases hx)]
    refine ⟨rfl, ?_⟩
    rw [procs_closeConn hact hpid']
    simp [Conn.emit, hcalls]
  | inCall => cases congrArg Prod.snd h
  | wouldBlock =>
    obtain rfl := (Prod.mk.inj h).1
    rw [if_neg (by simp)]
    refine ⟨hact, hpid', ?_⟩
    simp [Conn.waitOutput, Conn.rearmEvent, Conn.addTimer, Conn.emit, hcalls]
    rfl
  | needMore =>
    obtain rfl := (Prod.mk.inj h).1
    rw [if_neg (by simp)]
    split
    · refine ⟨hact, hpid', ?_⟩
      simp [Conn.watchPipe, Conn.addTimer, Conn.emit, hcalls]
      rfl
    · refine ⟨hact, hpid', ?_⟩
      simp [Conn.addTimer, Conn.emit, hcalls]
      rfl

/-- A step of a connection on which a script runs goes on or tears the script down. -/
theorem running_step {lib : Libc} {c c' : Conn} {a : ConnAct} {pid : Pid} (h : Phase c)
    (hact : c.r.cgi.active = true) (hpid : c.r.cgi.pid = some pid)
    (hstep : connStep lib c a = some c') :
    if closesScript c a then c'.isOpen = false ∧ procs c'.tr = procs c.tr ++ teardown pid c a
    else c'.r.cgi.active = true ∧ c'.r.cgi.pid = some pid ∧ procs c'.tr = procs c.tr := by
  cases connStep_cases hstep with
  | takeSocket g hg => exact ⟨hact, hpid, rfl⟩
  | takePipe g hg => exact ⟨hact, hpid, rfl⟩
  | request es _ hf hd =>
    cases h with
    | reading hopen hsock hpipe hout hcgi | writing hopen hsock hpipe hout hcgi =>
      cases (noScript_active hcgi).symm.trans hact
    | cgiWriting hopen hsock => cases fired_waits hf hsock
    | cgiReading hopen hsock | closed hopen hsock => cases hf.symm.trans hsock
  | write e _ hf hd =>
    cases h with
    | cgiWriting hopen hsock hpipe hs hbuilt hfd =>
      have hs' : Script { c with sock := .off }.delTimer :=
        script_quiet [.delTimer] hs ⟨rfl, rfl, rfl⟩ (by simp [Call.isServe]) rfl rfl
      have hw' : writeCgi e { c with sock := .off }.delTimer = (c', true) :=
        (if_pos hs.active).symm.trans hd
      have hlog : procs { c with sock := .off }.delTimer.tr = procs c.tr := by
        show procs (c.tr ++ [.delTimer]) = procs c.tr
        rw [procs_append]
        exact List.append_nil _
      have hrun := write_running hs' hpid hw'
      rw [hlog] at hrun
      simp only [closesScript, decide_eq_true_eq]
      exact hrun
    | reading hopen hsock => cases fired_waits hf hsock
    | writing hopen hsock hpipe hout hcgi => cases (noScript_active hcgi).symm.trans hact
    | cgiReading hopen hsock | closed hopen hsock => cases hf.symm.trans hsock
  | stdout answers reaped _ hf hd =>
    cases h with
    | cgiReading hopen hsock hpipe hs hfd hu =>
      have hrun := stdout_running (c := { c with pipe := .off }) ⟨hs.active, hs.relay, hs.text⟩
        hfd hpid hd
      simp only [closesScript, decide_eq_true_eq]
      exact hrun
    | reading hopen hsock hpipe | writing hopen hsock hpipe | cgiWriting hopen hsock hpipe
    | closed hopen hsock hpipe => cases hf.symm.trans hpipe
  | hangup ev reaped hf =>
    refine ⟨rfl, ?_⟩
    rw [procs_closeConn (c := c.delTimer) hact hpid]
    show procs (c.tr ++ [.delTimer]) ++ _ = _
    rw [procs_append]
    exact congrArg (· ++ _) (List.append_nil _)
  | expire reaped hopen => exact ⟨rfl, procs_closeConn hact hpid reaped⟩

/-! ### Before and after a script -/

/-- A start that failed has left its child waited for. -/
def RefusedLog (log : List Call) : Prop :=
  ∃ pid file envp, log = [.fork pid file envp, .kill pid, .waitpid pid true]

theorem procs_lookup {look : List Call} (h : Lookup look) :
    procs look = [] ∨ RefusedLog (procs look) := by
  cases h with
  | direct => exact .inl rfl
  | stat file => exact .inl rfl
  | start file calls hf =>
    cases hf with
    | noPipe => exact .inl rfl
    | onePipe a b => exact .inl rfl
    | noFork a b c d => exact .inl rfl
    | blocking a b c d pid file envp => exact .inr ⟨pid, file, envp, rfl⟩

theorem procs_prologue {c c₁ : Conn} {look : List Call} {file : Option (Bytes × Fd)}
    (h : Prologue c c₁ look file) : procs c₁.tr = procs c.tr ++ procs look := by
  have hopen : procs (file.map fun f => Call.openFile f.1 f.2).toList = [] := by
    cases file <;> rfl
  have hserve : procs (.serve c.r.inp.served c.r.inp.method :: look) = procs look := rfl
  rw [h.frame]
  show procs (c.tr ++ .serve c.r.inp.served c.r.inp.method :: look ++ closeFd c.r.out.outFileFd ++
    (file.map fun f => Call.openFile f.1 f.2).toList) = _
  rw [procs_append, procs_append, procs_append, hopen, procs_closeFd, hserve, List.append_nil,
    List.append_nil]

end ReapingLemmas

open ReapingLemmas

/-- The record of a connection that has not lost a script: none was started, the start
failed, or it runs. -/
inductive StartLog (c : Conn) : Prop
  | none (log : procs c.tr = []) (idle : c.r.cgi.active = false)
  | refused (log : RefusedLog (procs c.tr)) (idle : c.r.cgi.active = false)
      (last : c.isOpen = false ∨ c.sock.waits .epollout = true ∧ c.r.out.keepAlive = false)
  | running (pid : Pid) (file : Bytes) (envp : List Bytes)
      (log : procs c.tr = [.fork pid file envp]) (active : c.r.cgi.active = true)
      (child : c.r.cgi.pid = some pid)

/-- What the record can say about processes. -/
inductive ChildLog (c : Conn) : Prop
  | start (log : StartLog c)
  | torn (pid : Pid) (file : Bytes) (envp : List Bytes) (reaped : Bool)
      (log : procs c.tr = [.fork pid file envp, .kill pid, .waitpid pid reaped])
      (isClosed : c.isOpen = false)
  | ended (pid : Pid) (file : Bytes) (envp : List Bytes) (reaped reaped' : Bool)
      (log : procs c.tr =
        [.fork pid file envp, .waitpid pid reaped, .kill pid, .waitpid pid reaped'])
      (isClosed : c.isOpen = false)

namespace ReapingLemmas

/-- What a pass of `do_request` leaves in the record. -/
structure PassLog (x : Conn × PassExit) : Prop where
  on : x.2 = .next ∨ x.2 = .idle → procs x.1.tr = []
  done : x.2 = .returned ∨ x.2 = .closed → StartLog x.1

theorem PassLog.plain {x : Conn × PassExit} (hlog : procs x.1.tr = [])
    (hidle : x.1.r.cgi.active = false) : PassLog x :=
  ⟨fun _ => hlog, fun _ => .none hlog hidle⟩

theorem closeConn_idle {c : Conn} (h : c.r.cgi.active = false) (reaped : Bool) :
    (zvHttpCloseConn reaped c).r.cgi.active = false := by
  simp [zvHttpCloseConn, zvFreeRequestT, freeCgi, h]

theorem requestDone_idle {e : PassEnv} {keepAlive : Bool} {c : Conn}
    (h : c.r.cgi.active = false) : (requestDone e keepAlive c).1.r.cgi.active = false := by
  unfold requestDone
  split
  · exact closeConn_idle h _
  · dsimp only
    split
    · exact h
    · split
      · exact closeConn_idle (c := Conn.reset _) h _
      · exact h

theorem deliver_idle {e : PassEnv} {last keepAlive : Bool} {c : Conn}
    (h : c.r.cgi.active = false) : (deliver e last keepAlive c).1.r.cgi.active = false := by
  have hcgi : (c.trySend e.send).1.r.cgi.active = false := h
  unfold deliver
  generalize c.trySend e.send = res at hcgi ⊢
  obtain ⟨c₂, rc⟩ := res
  cases rc with
  | fail => exact closeConn_idle (c := c₂.reset) hcgi _
  | inCall => exact hcgi
  | again =>
    dsimp only
    split
    · exact hcgi
    · exact requestDone_idle (c := c₂.setWriting) hcgi
  | done =>
    dsimp only
    split
    · exact closeConn_idle (c := c₂.reset) hcgi _
    · exact requestDone_idle (c := c₂.reset) hcgi

/-- After a page that is the last one the connection is closed or waits to be. -/
theorem deliver_last {e : PassEnv} {c c' : Conn} {x : PassExit}
    (hka : c.r.out.keepAlive = false) (h : deliver e true c.r.out.keepAlive c = (c', x))
    (hx : x = .returned ∨ x = .closed) :
    c'.isOpen = false ∨ c'.sock.waits .epollout = true ∧ c'.r.out.keepAlive = false := by
  unfold deliver at h
  split at h
  · obtain rfl := (Prod.mk.inj h).1
    exact .inl rfl
  · next c₂ hs =>
    obtain ⟨_, _, _, _, -, rfl⟩ := trySend_frame hs
    rw [if_pos rfl] at h
    obtain rfl := (Prod.mk.inj h).1
    exact .inr ⟨rfl, hka⟩
  · rw [if_pos rfl] at h
    obtain rfl := (Prod.mk.inj h).1
    exact .inl rfl
  · obtain rfl := (Prod.mk.inj h).2
    exact hx.elim (fun hx => by cases hx) fun hx => by cases hx

theorem deliver_last_exit {e : PassEnv} {keepAlive : Bool} {c c' : Conn} {x : PassExit}
    (h : deliver e true keepAlive c = (c', x)) : x ≠ .next ∧ x ≠ .idle := by
  unfold deliver at h
  split at h
  · obtain rfl := (Prod.mk.inj h).2
    exact ⟨(fun hx => by cases hx), fun hx => by cases hx⟩
  · rw [if_pos rfl] at h
    obtain rfl := (Prod.mk.inj h).2
    exact ⟨(fun hx => by cases hx), fun hx => by cases hx⟩
  · rw [if_pos rfl] at h
    obtain rfl := (Prod.mk.inj h).2
    exact ⟨(fun hx => by cases hx), fun hx => by cases hx⟩
  · obtain rfl := (Prod.mk.inj h).2
    exact ⟨(fun hx => by cases hx), fun hx => by cases hx⟩

theorem answered_log {lib : Libc} {e : PassEnv} {c : Conn} {x : Conn × PassExit}
    (hidle : c.r.cgi.active = false) (hlog : procs c.tr = []) (ha : Answered lib e c x) :
    PassLog x := by
  cases ha with
  | refused c₁ look hp =>
    have hlog₁ := procs_prologue hp
    have hidle₁ : c₁.r.cgi.active = false := by
      rw [hp.frame]
      exact hidle
    have hclosed : procs (c₁.closeLabel e.reaped).tr = procs look := by
      rw [procs_plain (closeLabel_plain hidle₁ e.reaped), hlog₁, hlog, List.nil_append]
    have hcl : (c₁.closeLabel e.reaped).r.cgi.active = false :=
      closeConn_idle (c := c₁.reset) hidle₁ _
    refine ⟨(fun hx => hx.elim (fun hx => by cases hx) fun hx => by cases hx), fun _ => ?_⟩
    rcases procs_lookup hp.lookup with hl | hl
    · exact .none (hclosed.trans hl) hcl
    · exact .refused (hclosed.symm ▸ hl) hcl (.inl rfl)
  | reply c₁ look file last hp hcomp hlast hlook =>
    have hidle₁ : c₁.r.cgi.active = false := by
      rw [hp.frame]
      exact hidle
    have hlog₁ : procs (deliver e last c₁.r.out.keepAlive c₁).1.tr = procs look := by
      rw [procs_plain (deliver_plain hidle₁ e last _), procs_prologue hp, hlog, List.nil_append]
    have hidle₂ : (deliver e last c₁.r.out.keepAlive c₁).1.r.cgi.active = false :=
      deliver_idle hidle₁
    cases last with
    | false =>
      obtain ⟨f, rfl⟩ := hlook rfl
      exact PassLog.plain hlog₁ hidle₂
    | true =>
      generalize hd : deliver e true c₁.r.out.keepAlive c₁ = y at hlog₁ hidle₂
      obtain ⟨c', x⟩ := y
      obtain ⟨hn, hi⟩ := deliver_last_exit hd
      refine ⟨fun hx => (hx.elim hn hi).elim, fun hx => ?_⟩
      rcases procs_lookup hp.lookup with hl | hl
      · exact .none (hlog₁.trans hl) hidle₂
      · exact .refused (hlog₁.symm ▸ hl) hidle₂ (deliver_last (hlast rfl) hd hx)
  | started i file envp pid inR inW outR outW hi hm hu =>
    refine ⟨(fun hx => hx.elim (fun hx => by cases hx) fun hx => by cases hx), fun _ => ?_⟩
    refine .running pid file envp ?_ rfl rfl
    show procs (c.tr ++ _) = _
    rw [procs_append, hlog]
    rfl

theorem fed_log {c c₁ : Conn} (h : Fed c c₁) : procs c₁.tr = procs c.tr ∧
    c₁.r.cgi = c.r.cgi := by
  cases h with
  | left hlt => exact ⟨rfl, rfl⟩
  | read bs hle hne hroom =>
    refine ⟨?_, rfl⟩
    show procs (c.tr ++ [.recv bs]) = procs c.tr
    rw [procs_append]
    exact List.append_nil _

theorem requestPass_log (lib : Libc) (e : PassEnv) {c : Conn} (hidle : c.r.cgi.active = false)
    (hlog : procs c.tr = []) : PassLog (requestPass lib e c) := by
  have hclose : ∀ c₁ : Conn, c₁.r.cgi.active = false → procs c₁.tr = [] →
      PassLog (c₁.closeLabel e.reaped, .closed) := by
    intro c₁ hidle₁ hlog₁
    refine PassLog.plain ?_ (closeConn_idle (c := c₁.reset) hidle₁ _)
    exact (procs_plain (closeLabel_plain hidle₁ e.reaped)).trans hlog₁
  have hp := requestPass_cases lib e c
  generalize requestPass lib e c = x at hp ⊢
  cases hp with
  | idle hle => exact PassLog.plain hlog hidle
  | dropped hle => exact hclose c hidle hlog
  | more c₁ i hf hpar =>
    obtain ⟨hlog₁, hcgi₁⟩ := fed_log hf
    exact PassLog.plain (hlog₁.trans hlog) (show c₁.r.cgi.active = false from hcgi₁ ▸ hidle)
  | refused c₁ hf hs =>
    obtain ⟨hlog₁, hcgi₁⟩ := fed_log hf
    exact PassLog.plain (hlog₁.trans hlog) (show c₁.r.cgi.active = false from hcgi₁ ▸ hidle)
  | bad c₁ i rc hf hpar hrc =>
    obtain ⟨hlog₁, hcgi₁⟩ := fed_log hf
    exact hclose { c₁ with r := { c₁.r with inp := i } }
      (show c₁.r.cgi.active = false from hcgi₁ ▸ hidle) (hlog₁.trans hlog)
  | answered c₁ i _ hf hpar hx =>
    obtain ⟨hlog₁, hcgi₁⟩ := fed_log hf
    rw [hx]
    exact answered_log (c := { c₁ with r := { c₁.r with inp := i } })
      (show c₁.r.cgi.active = false from hcgi₁ ▸ hidle) (hlog₁.trans hlog) (answer_cases lib e _)

theorem doRequest_log {lib : Libc} {es : List PassEnv} {c c' : Conn} (h : AtLoop c)
    (hlog : procs c.tr = []) (hd : doRequest lib es c = (c', true)) : StartLog c' := by
  have hlog₀ : procs c.delTimer.tr = [] := by
    show procs (c.tr ++ [.delTimer]) = []
    rw [procs_append, hlog]
    rfl
  have hnext : ∀ e c₁ c₂, (AtLoop c₁ ∧ procs c₁.tr = []) → ¬ Stuck c₂.r.inp →
      requestPass lib e c₁ = (c₂, .next) → AtLoop c₂ ∧ procs c₂.tr = [] := by
    intro e c₁ c₂ h₁ _ heq
    have hok := requestPass_ok lib e h₁.1
    have hpl := requestPass_log lib e (noScript_active h₁.1.cgi) h₁.2
    rw [heq] at hok hpl
    exact ⟨hok.next rfl, hpl.on (.inl rfl)⟩
  obtain ⟨c₁, e, c₂, x, h₁, hpass, hend⟩ := requestLoop_cases hnext
    (⟨⟨⟨h.isOpen, h.sock, h.pipe, h.cgi, h.window⟩, h.out⟩, hlog₀⟩ :
      AtLoop c.delTimer ∧ procs c.delTimer.tr = []) hd
  have hok := requestPass_ok lib e h₁.1
  have hpl := requestPass_log lib e (noScript_active h₁.1.cgi) h₁.2
  rw [hpass] at hok hpl
  rcases hend with ⟨rfl, ms, rfl⟩ | ⟨hx, rfl⟩
  · have h₂ := (hok.idle rfl).1
    refine .none ?_ (noScript_active h₂.cgi)
    show procs (c₂.tr ++ [.rearm .epollin] ++ [.addTimer ms]) = []
    rw [procs_append, procs_append, hpl.on (.inr rfl)]
    rfl
  · exact hpl.done hx

theorem writeStatic_idle {e : WriteEnv} {c c' : Conn} (h : c.r.cgi.active = false)
    (hw : writeStatic e c = (c', true)) :
    c'.r.cgi.active = false ∧ (c.r.out.keepAlive = false →
      c'.isOpen = false ∨ c'.sock.waits .epollout = true ∧ c'.r.out.keepAlive = false) := by
  unfold writeStatic at hw
  split at hw
  · next c₂ hs =>
    obtain ⟨_, _, _, _, -, rfl⟩ := trySend_frame hs
    obtain rfl := (Prod.mk.inj hw).1
    exact ⟨h, fun hka => .inr ⟨rfl, hka⟩⟩
  · next c₂ hs =>
    obtain ⟨_, _, _, _, -, rfl⟩ := trySend_frame hs
    obtain rfl := (Prod.mk.inj hw).1
    exact ⟨closeConn_idle (c := Conn.reset _) h _, fun _ => .inl rfl⟩
  · cases congrArg Prod.snd hw
  · next c₂ hs =>
    obtain ⟨_, _, _, _, -, rfl⟩ := trySend_frame hs
    dsimp only at hw
    split at hw
    · obtain rfl := (Prod.mk.inj hw).1
      exact ⟨closeConn_idle (c := Conn.reset _) h _, fun _ => .inl rfl⟩
    · next hka =>
      obtain rfl := (Prod.mk.inj hw).1
      exact ⟨h, fun hx => absurd hx hka⟩

/-- A step without a running script. -/
theorem idle_step {lib : Libc} {c c' : Conn} {a : ConnAct} (h : Phase c)
    (hidle : c.r.cgi.active = false) (hlog : StartLog c) (hstep : connStep lib c a = some c') :
    StartLog c' := by
  have hdel : procs (c.tr ++ [.delTimer]) = procs c.tr := by
    rw [procs_append]
    exact List.append_nil _
  have hclosed : ∀ c₁ reaped, c₁.r.cgi.active = false → procs c₁.tr = procs c.tr →
      StartLog (zvHttpCloseConn reaped c₁) := by
    intro c₁ reaped hidle₁ hlog₁
    have hpl := (procs_plain (closeConn_plain hidle₁ reaped)).trans hlog₁
    have hcl := closeConn_idle hidle₁ reaped
    cases hlog with
    | none hl _ => exact .none (hpl.trans hl) hcl
    | refused hl _ _ => exact .refused (hpl.symm ▸ hl) hcl (.inl rfl)
    | running pid file envp hl hact _ => cases hidle.symm.trans hact
  have hfields : ∀ c₁ : Conn, c₁.tr = c.tr → c₁.r = c.r → c₁.isOpen = c.isOpen →
      (c.sock.waits .epollout = true → c₁.sock.waits .epollout = true) → StartLog c₁ := by
    intro c₁ htr hr ho hs
    cases hlog with
    | none hl hi => exact .none (htr ▸ hl) (hr ▸ hi)
    | refused hl hi hlast =>
      refine .refused (htr ▸ hl) (hr ▸ hi) (hlast.imp (fun hx => ho ▸ hx) fun hx => ⟨hs hx.1, hr ▸ hx.2⟩)
    | running pid file envp hl hact _ => cases hidle.symm.trans hact
  cases connStep_cases hstep with
  | takeSocket g hg => exact hfields _ rfl rfl rfl fun hx => take_waits hg hx
  | takePipe g hg => exact hfields _ rfl rfl rfl id
  | request es _ hf hd =>
    cases h with
    | reading hopen hsock hpipe hout hcgi hwin =>
      have hnone : procs c.tr = [] := by
        cases hlog with
        | none hl hi => exact hl
        | refused hl hi hlast =>
          rcases hlast with hx | hx
          · cases hopen.symm.trans hx
          · cases fired_waits hf hx.1
        | running pid file envp hl hact _ => cases hidle.symm.trans hact
      exact doRequest_log (c := { c with sock := .off }) ⟨⟨hopen, rfl, hpipe, hcgi, hwin⟩, hout⟩
        hnone hd
    | writing hopen hsock | cgiWriting hopen hsock => cases fired_waits hf hsock
    | cgiReading hopen hsock | closed hopen hsock => cases hf.symm.trans hsock
  | write e _ hf hd =>
    have hact : ¬ c.r.cgi.active = true := by
      rw [hidle]
      exact fun hx => by cases hx
    have hw : writeStatic e { c with sock := .off }.delTimer = (c', true) :=
      (if_neg hact).symm.trans hd
    have hpl := procs_plain (writeStatic_plain (e := e) (c := { c with sock := .off }.delTimer) hidle)
    rw [hw] at hpl
    replace hpl : procs c'.tr = procs c.tr := hpl.trans hdel
    obtain ⟨hidle', hka⟩ := writeStatic_idle (c := { c with sock := .off }.delTimer) hidle hw
    have hopen : c.isOpen = true := by
      cases h with
      | reading hopen | writing hopen | cgiReading hopen | cgiWriting hopen => exact hopen
      | closed hopen hsock => cases hf.symm.trans hsock
    cases hlog with
    | none hl _ => exact .none (hpl.trans hl) hidle'
    | refused hl _ hlast =>
      refine .refused (hpl.symm ▸ hl) hidle' (hka ?_)
      rcases hlast with hx | hx
      · cases hopen.symm.trans hx
      · exact hx.2
    | running pid file envp hl hact' _ => cases hidle.symm.trans hact'
  | stdout answers reaped _ hf hd =>
    cases h with
    | cgiReading hopen hsock hpipe hs => cases hidle.symm.trans hs.active
    | reading hopen hsock hpipe | writing hopen hsock hpipe | cgiWriting hopen hsock hpipe
    | closed hopen hsock hpipe => cases hf.symm.trans hpipe
  | hangup ev reaped hf => exact hclosed c.delTimer reaped hidle hdel
  | expire reaped hopen => exact hclosed c reaped hidle rfl

/-- A step with a running script: it goes on, or it is torn down. -/
theorem running_log {lib : Libc} {c c' : Conn} {a : ConnAct} {pid : Pid} {file : Bytes}
    {envp : List Bytes} (h : Phase c) (hact : c.r.cgi.active = true)
    (hlog : procs c.tr = [.fork pid file envp]) (hpid : c.r.cgi.pid = some pid)
    (hstep : connStep lib c a = some c') :
    if closesScript c a then
      c'.isOpen = false ∧ procs c'.tr = .fork pid file envp :: teardown pid c a
    else StartLog c' := by
  have hrun := running_step h hact hpid hstep
  rw [hlog] at hrun
  split
  · next hcl =>
    rw [if_pos hcl] at hrun
    exact hrun
  · next hcl =>
    rw [if_neg hcl] at hrun
    exact .running pid file envp hrun.2.2 hrun.1 hrun.2.1

theorem step_log {lib : Libc} {c c' : Conn} {a : ConnAct} (h : Phase c) (hlog : ChildLog c)
    (hstep : connStep lib c a = some c') : ChildLog c' := by
  cases hlog with
  | torn pid file envp r hl hc => exact absurd hstep (closed_stays h hc)
  | ended pid file envp r r' hl hc => exact absurd hstep (closed_stays h hc)
  | start hs =>
    cases hact : c.r.cgi.active with
    | false => exact .start (idle_step h hact hs hstep)
    | true =>
      cases hs with
      | none _ hi => cases hi.symm.trans hact
      | refused _ hi _ => cases hi.symm.trans hact
      | running pid file envp hl _ hpid =>
        have hrun := running_log h hact hl hpid hstep
        split at hrun
        · next hcl =>
          obtain ⟨hopen, hlog'⟩ := hrun
          cases a with
          | write e =>
            simp only [teardown] at hlog'
            split at hlog'
            · exact .ended pid file envp _ _ hlog' hopen
            · exact .torn pid file envp _ hlog' hopen
          | stdout answers reaped => exact .torn pid file envp reaped hlog' hopen
          | hangup reaped => exact .torn pid file envp reaped hlog' hopen
          | expire reaped => exact .torn pid file envp reaped hlog' hopen
          | takeSocket | takePipe | request es => cases hcl
        · exact .start hrun

theorem start_log (old : Request) (fd : Fd) (cf : Conf) : ChildLog (acceptConn old fd cf) :=
  .start (.none rfl rfl)

end ReapingLemmas

/-! ## Signals -/

/-- No child is signalled after it was reaped. -/
def NoKillAfterReap (tr : List Call) : Prop :=
  ∀ pid t u, tr = t ++ .waitpid pid true :: u → .kill pid ∉ u

/-- The `waitpid` after the last chunk does not find the child terminated. -/
def LeavesChild (c : Conn) : ConnAct → Prop
  | .write e => c.r.cgi.active = true → (writerLoop c.r.cgi e.cgi).2.2 = .finished →
      e.reapedWrite = false
  | _ => True

/-! ## Children left behind -/

namespace ReapingLemmas

/-! ### Reading the record -/

theorem mem_procs {x : Call} (hx : x.isProc = true) {tr : List Call} : x ∈ procs tr ↔ x ∈ tr := by
  unfold procs
  rw [List.mem_filter]
  exact ⟨fun h => h.1, fun h => ⟨h, hx⟩⟩

theorem noKill_iff (tr : List Call) : NoKillAfterReap tr ↔ NoKillAfterReap (procs tr) := by
  constructor
  · intro h pid t u heq hmem
    obtain ⟨t', u', rfl, ht, hu⟩ := List.filter_eq_append_iff.mp heq
    obtain ⟨v, w, rfl, hv, hw, hu'⟩ := List.filter_eq_cons_iff.mp hu
    refine h pid (t' ++ v) w (by simp) ?_
    rw [← hu'] at hmem
    exact (List.mem_filter.mp hmem).1
  · intro h pid t u heq hmem
    refine h pid (procs t) (procs u) ?_ ((mem_procs rfl).mpr hmem)
    rw [heq, procs_append]
    rfl

theorem noKill_torn (pid : Pid) (file : Bytes) (envp : List Bytes) (r : Bool) :
    NoKillAfterReap [.fork pid file envp, .kill pid, .waitpid pid r] := by
  intro pid' t u heq hmem
  match t with
  | [] => cases heq
  | [_] => simp at heq
  | [_, _] =>
    obtain rfl : u = [] := by
      simp only [List.cons_append, List.nil_append, List.cons.injEq] at heq
      exact heq.2.2.2.symm
    exact absurd hmem List.not_mem_nil
  | _ :: _ :: _ :: t => simp at heq

theorem noKill_start {c : Conn} (h : StartLog c) : NoKillAfterReap c.tr := by
  rw [noKill_iff]
  cases h with
  | none hl _ =>
    rw [hl]
    intro pid t u heq
    exact absurd heq (by simp)
  | refused hl _ _ =>
    obtain ⟨pid, file, envp, heq⟩ := hl
    rw [heq]
    exact noKill_torn pid file envp true
  | running pid file envp hl _ _ =>
    rw [hl]
    intro pid' t u heq hmem
    match t with
    | [] => cases heq
    | _ :: t => simp at heq

/-- What is signalled and reaped at a teardown. -/
theorem noKill_teardown (pid : Pid) (file : Bytes) (envp : List Bytes) (c : Conn) {a : ConnAct}
    (hcl : closesScript c a = true) (hact : c.r.cgi.active = true) :
    NoKillAfterReap (.fork pid file envp :: teardown pid c a) ↔ LeavesChild c a := by
  cases a with
  | takeSocket | takePipe | request es => cases hcl
  | stdout answers r => exact ⟨fun _ => trivial, fun _ => noKill_torn pid file envp r⟩
  | hangup r => exact ⟨fun _ => trivial, fun _ => noKill_torn pid file envp r⟩
  | expire r => exact ⟨fun _ => trivial, fun _ => noKill_torn pid file envp r⟩
  | write e =>
    simp only [teardown, LeavesChild]
    split
    · next hfin =>
      constructor
      · intro hno _ _
        cases hr : e.reapedWrite with
        | false => rfl
        | true =>
          rw [hr] at hno
          exact absurd (by simp) (hno pid [.fork pid file envp] _ rfl)
      · intro hr pid' t u heq hmem
        rw [hr hact hfin] at heq
        match t with
        | [] => cases heq
        | [_] => simp at heq
        | [_, _] => simp at heq
        | [_, _, _] =>
          obtain rfl : u = [] := by
            simp only [List.cons_append, List.nil_append, List.cons.injEq] at heq
            exact heq.2.2.2.2.symm
          exact absurd hmem List.not_mem_nil
        | _ :: _ :: _ :: _ :: t => simp at heq
    · next hfin =>
      exact ⟨fun _ _ hx => absurd hx hfin, fun _ => noKill_torn pid file envp e.reapedFree⟩

/-- Outside a teardown a step signals nobody. -/
theorem leaves_of_open {c : Conn} {a : ConnAct}
    (h : c.r.cgi.active = false ∨ closesScript c a = false) : LeavesChild c a := by
  cases a with
  | write e =>
    intro hact hfin
    rcases h with hx | hx
    · cases hx.symm.trans hact
    · simp [closesScript, hfin] at hx
  | _ => trivial

theorem noKill_step {lib : Libc} {c c' : Conn} {a : ConnAct} (h : Phase c) (hlog : ChildLog c)
    (hstep : connStep lib c a = some c') : NoKillAfterReap c'.tr ↔ LeavesChild c a := by
  cases hlog with
  | torn pid file envp r hl hc => exact absurd hstep (closed_stays h hc)
  | ended pid file envp r r' hl hc => exact absurd hstep (closed_stays h hc)
  | start hs =>
    cases hact : c.r.cgi.active with
    | false =>
      exact ⟨fun _ => leaves_of_open (.inl hact), fun _ => noKill_start (idle_step h hact hs hstep)⟩
    | true =>
      cases hs with
      | none _ hi => cases hi.symm.trans hact
      | refused _ hi _ => cases hi.symm.trans hact
      | running pid file envp hl _ hpid =>
        have hrun := running_log h hact hl hpid hstep
        split at hrun
        · next hcl =>
          rw [noKill_iff, hrun.2]
          exact noKill_teardown pid file envp c hcl hact
        · next hcl =>
          have hopen : closesScript c a = false := by simpa using hcl
          exact ⟨fun _ => leaves_of_open (.inr hopen), fun _ => noKill_start hrun⟩

end ReapingLemmas

open ReapingLemmas

/-- In every state of a run no child was signalled after it was reaped, exactly when no
`waitpid` after a last chunk finds the child terminated. -/
theorem no_kill_after_reap_iff {lib : Libc} {old : Request} {fd : Fd} {cf : Conf}
    {acts : List ConnAct} {c : Conn}
    (hrun : run (connStep lib) (acceptConn old fd cf) acts = some c) :
    (∀ pre post c', acts = pre ++ post → run (connStep lib) (acceptConn old fd cf) pre = some c' →
      NoKillAfterReap c'.tr) ↔
    Along (connStep lib) LeavesChild (acceptConn old fd cf) acts := by
  refine always_iff_along (I := fun c => Phase c ∧ ChildLog c) ?_ ?_
    ⟨phase_accept old fd cf, start_log old fd cf⟩ (noKill_start (.none rfl rfl)) hrun
  · intro c₁ a c₂ hinv hstep
    exact ⟨connStep_phase hinv.1 hstep, step_log hinv.1 hinv.2 hstep⟩
  · intro c₁ a c₂ hinv _ hstep
    exact noKill_step hinv.1 hinv.2 hstep

/-- A pass in which a script is asked for and started. -/
def scriptPass : PassEnv where
  read := .ok (ascii "GET /cgi-bin/a HTTP/1.1\r\n\r\n")
  malloc := true
  stat := some ⟨true, true, true, 10, 0⟩
  realpath := some
  openAns := none
  send := ⟨[], []⟩
  start := ⟨some (10, 11), some (12, 13), some 99, true⟩
  outMtime := 0
  tmIsdst := fun _ => 0
  reaped := false

/-- A script that writes nothing and has ended when its response is sent. -/
def silentScript : List ConnAct :=
  [.takeSocket, .request [scriptPass], .takePipe, .stdout [.ok []] false, .takeSocket,
    .write ⟨⟨[], []⟩, [.ok 1000, .ok 1000], true, false⟩]

/-- The same, but the child is only found when the connection is freed. -/
def endedScript : List ConnAct :=
  [.takeSocket, .request [scriptPass], .takePipe, .stdout [.ok []] false, .takeSocket,
    .write ⟨⟨[], []⟩, [.ok 1000, .ok 1000], false, true⟩]

theorem no_kill_after_reap_iff_ended :
    let start := acceptConn Request.zero 7 ⟨some (ascii "/srv"), 0, 0⟩
    ∃ c, run (connStep sampleLib) start endedScript = some c ∧ c.isOpen = false ∧
      ((∀ pre post c', endedScript = pre ++ post → run (connStep sampleLib) start pre = some c' →
        NoKillAfterReap c'.tr) ↔ Along (connStep sampleLib) LeavesChild start endedScript) := by
  intro start
  have hsome : (run (connStep sampleLib) start endedScript).map Conn.isOpen = some false := by
    decide +kernel
  obtain ⟨c, hc, hshut⟩ := Option.map_eq_some_iff.mp hsome
  exact ⟨c, hc, hshut, no_kill_after_reap_iff hc⟩

/-- The child is reaped after the last chunk and signalled when the connection is freed. -/
theorem silentScript_killed : ∃ c, Reached sampleLib c ∧ ¬ NoKillAfterReap c.tr := by
  have hrun : (run (connStep sampleLib) (acceptConn Request.zero 7 ⟨some (ascii "/srv"), 0, 0⟩)
      silentScript).map (fun c => procs c.tr) =
      some [.fork 99 (ascii "/srv/cgi-bin/a")
        (cgiEnvp (ascii "/srv/cgi-bin/a") (ascii "/cgi-bin/a") none),
        .waitpid 99 true, .kill 99, .waitpid 99 false] := by decide +kernel
  obtain ⟨c, hc, hlog⟩ := Option.map_eq_some_iff.mp hrun
  refine ⟨c, ⟨_, _, _, _, hc⟩, fun h => ?_⟩
  rw [noKill_iff, hlog] at h
  exact h 99 [_] [.kill 99, .waitpid 99 false] rfl (by simp)

end Zaver
