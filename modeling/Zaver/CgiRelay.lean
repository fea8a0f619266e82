import Zaver.CgiReader

/-!
# Runs of the CGI relay

After `zv_cgi_start` the connection only sees the two CGI callbacks, in whatever
order their events come and whatever the kernel answers. `CgiInv` is the invariant
of such runs; it puts the specifications of the reader and of the writer together.

Result: `cgi_chunk_writer_exact`. What the client accepts is at any time a prefix of the
chunked coding of the pieces, no piece is overwritten early, and a call that reports the end
has sent all of it.
-/

namespace Zaver

open CString Chunked Gather ChunkWriterLemmas CgiReaderLemmas

/-! ## Runs -/

/-- The callbacks of a running script, each with the answers it gets. -/
inductive CgiEvent
  | stdoutReady (answers : List (Ans Bytes)) (reaped : Bool)
  | clientWritable (answers : List (Ans Nat)) (reaped : Bool)

/-- One callback. -/
def cgiStep (c : Conn) : CgiEvent → Conn
  | .stdoutReady answers reaped => (zvCgiOnStdoutReady answers reaped c).1
  | .clientWritable answers reaped => (zvCgiOnClientWritable answers reaped c).1

/-- Callbacks in order. -/
def cgiRun (c : Conn) (evs : List CgiEvent) : Conn := evs.foldl cgiStep c

/-- The connection has just started a script, and the record of calls begins here. The
CGI fields were last written by `zv_init_request_t`, for a connection starts at most
one script. -/
def Started (c : Conn) : Prop :=
  ∃ (c0 : Conn) (old : Request) (fd : Fd) (cf : Conf) (env : CgiStartEnv)
    (file name : Bytes) (query : Option Bytes),
    c0.r.cgi = (zvInitRequestT old fd cf).cgi ∧ (zvCgiStart env file name query c0).2 = true ∧
      c = { (zvCgiStart env file name query c0).1 with tr := [] }

/-- A connection on a fresh block that has just started `/cgi-bin/hello.sh`. -/
def helloConn : Conn :=
  let cf : Conf :=
    { root := some (ascii "./html"), keepAliveTimeoutMs := 5000, requestTimeoutMs := 5000 }
  let env : CgiStartEnv :=
    { inPipe := some (8, 9), outPipe := some (10, 11), fork := some 4242, nonblocking := true }
  let c0 : Conn :=
    { r := zvInitRequestT Request.zero 7 cf, sock := .fired .epollin, pipe := .off, isOpen := true
      tr := [] }
  { (zvCgiStart env (ascii "./html/cgi-bin/hello.sh") (ascii "/cgi-bin/hello.sh") none c0).1 with
    tr := [] }

theorem helloConn_started : Started helloConn :=
  ⟨_, Request.zero, 7, _, _, _, _, none, rfl, rfl, rfl⟩

/-- Whenever the pipe is read, and so the body buffer overwritten, the pieces loaded so
far have been accepted to the last byte. -/
def Guarded (header : Bytes) (tr : List Call) : Prop :=
  ∀ t bs u, tr = t ++ .pipeRead bs :: u →
    pieces t = [] ∨ accepted t = header ++ (pieces t).flatMap chunk

/-- The sums of a run are right at every moment. -/
structure CgiSums (c : Conn) : Prop where
  relay : Relay c.r.cgi (accepted c.tr) (pieces c.tr)
  guarded : Guarded (builtHeader c.r.cgi) c.tr
  text : BuiltLine c.r.cgi

/-- The invariant of a run. -/
structure CgiInv (c : Conn) : Prop extends CgiSums c where
  tracks : c.r.cgi.active = true → Tracks c.r.cgi (pipeReads c.tr) (pieces c.tr)

namespace CgiRelayLemmas

/-! ### Calls that move no bytes -/

/-- Calls that neither read the pipe, nor load a piece, nor write to the client. -/
structure Quiet (calls : List Call) : Prop where
  accepted : accepted calls = []
  pieces : pieces calls = []
  pipeReads : pipeReads calls = []

theorem Quiet.append {t u : List Call} (ht : Quiet t) (hu : Quiet u) : Quiet (t ++ u) :=
  ⟨by simp [ht.accepted, hu.accepted], by simp [ht.pieces, hu.pieces],
    by simp [ht.pipeReads, hu.pipeReads]⟩

theorem quiet_closeFd (fd : Option Fd) : Quiet (closeFd fd) := ⟨by simp, by simp, by simp⟩

theorem freeCgi_quiet (reaped : Bool) (c : CgiState) : Quiet (freeCgi reaped c).2 := by
  unfold freeCgi
  split
  · refine Quiet.append ?_ (quiet_closeFd _)
    cases c.pid <;> exact ⟨rfl, rfl, rfl⟩
  · exact ⟨rfl, rfl, rfl⟩

theorem zvHttpCloseConn_tr (reaped : Bool) (c : Conn) :
    ∃ calls, Quiet calls ∧ (zvHttpCloseConn reaped c).tr = c.tr ++ calls := by
  refine ⟨_, ?_, rfl⟩
  exact (((quiet_closeFd _).append (freeCgi_quiet reaped _)).append (quiet_closeFd _)).append
    ⟨rfl, rfl, rfl⟩

theorem zvHttpCloseConn_cgi (reaped : Bool) (c : Conn) :
    (zvHttpCloseConn reaped c).r.cgi = { c.r.cgi with
      active := false, pid := (zvHttpCloseConn reaped c).r.cgi.pid
      outFd := (zvHttpCloseConn reaped c).r.cgi.outFd } ∧
    ((zvHttpCloseConn reaped c).r.cgi.outFd = none ∨
      (zvHttpCloseConn reaped c).r.cgi.outFd = c.r.cgi.outFd) := by
  unfold zvHttpCloseConn zvFreeRequestT freeCgi
  dsimp only
  split
  · exact ⟨rfl, Or.inl rfl⟩
  · next h =>
    have hf : c.r.cgi.active = false := by simpa using h
    refine ⟨?_, Or.inr rfl⟩
    dsimp only
    rw [← hf]

/-! ### The record of calls -/

theorem guarded_append {header : Bytes} {tr calls : List Call} (h : Guarded header tr)
    (hc : ∀ t bs u, calls = t ++ .pipeRead bs :: u → pieces (tr ++ t) = [] ∨
      accepted (tr ++ t) = header ++ (pieces (tr ++ t)).flatMap chunk) :
    Guarded header (tr ++ calls) := by
  intro t bs u heq
  rcases List.append_eq_append_iff.mp heq with ⟨t', rfl, hcalls⟩ | ⟨u', htr, hu⟩
  · exact hc t' bs u hcalls
  · cases u' with
    | nil =>
      rw [List.append_nil] at htr
      subst htr
      have := hc [] bs u hu.symm
      rwa [List.append_nil] at this
    | cons x u' =>
      obtain ⟨rfl, -⟩ := List.cons.inj hu
      exact h t bs u' htr

theorem guarded_quiet {header : Bytes} {tr calls : List Call} (h : Guarded header tr)
    (hc : pipeReads calls = []) : Guarded header (tr ++ calls) := by
  refine guarded_append h fun t bs u heq => ?_
  rw [heq, pipeReads_append] at hc
  exact absurd (List.append_eq_nil_iff.mp hc).2 (by simp [pipeReads])

theorem guarded_of_no_pieces {header : Bytes} {tr : List Call} (h : pieces tr = []) :
    Guarded header tr := by
  intro t bs u heq
  rw [heq, pieces_append] at h
  exact Or.inl (List.append_eq_nil_iff.mp h).1

/-- Quiet calls keep the invariant. -/
theorem cgiInv_quiet {c c' : Conn} (h : CgiInv c) {t : List Call} (hq : Quiet t)
    (htr : c'.tr = c.tr ++ t) (hcgi : c'.r.cgi = c.r.cgi) : CgiInv c' := by
  refine ⟨⟨?_, ?_, ?_⟩, ?_⟩
  · rw [hcgi, htr, accepted_append, hq.accepted, pieces_append, hq.pieces, List.append_nil,
      List.append_nil]
    exact h.relay
  · rw [hcgi, htr]
    exact guarded_quiet h.guarded hq.pipeReads
  · rw [hcgi]
    exact h.text
  · rw [hcgi, htr, pieces_append, hq.pieces, pipeReads_append, hq.pipeReads, List.append_nil,
      List.append_nil]
    exact h.tracks

/-- Closing the connection keeps the sums, and the script is not tracked any longer. -/
theorem cgiInv_close {c : Conn} (h : CgiSums c) (reaped : Bool) :
    CgiInv (zvHttpCloseConn reaped c) := by
  obtain ⟨calls, hq, htr⟩ := zvHttpCloseConn_tr reaped c
  obtain ⟨hcgi, hfd⟩ := zvHttpCloseConn_cgi reaped c
  generalize (zvHttpCloseConn reaped c).r.cgi.pid = pid,
    (zvHttpCloseConn reaped c).r.cgi.outFd = ofd at hcgi hfd
  refine ⟨⟨?_, ?_, ?_⟩, ?_⟩
  · rw [hcgi, htr, accepted_append, hq.accepted, pieces_append, hq.pieces, List.append_nil,
      List.append_nil]
    refine ⟨h.relay.toBalanced.reader false pid ofd _ _ _ _, h.relay.early, fun hne => ?_,
      h.relay.hdrRoom⟩
    rcases hfd with hfd | hfd
    · exact absurd hfd hne
    · exact h.relay.fdOpen fun hx => hne (hfd.trans hx)
  · rw [hcgi, htr]
    exact guarded_quiet h.guarded hq.pipeReads
  · rw [hcgi]
    exact h.text
  · rw [hcgi]
    exact fun hx => by cases hx

/-! ### The callbacks keep the invariant -/

/-- A pipe that is read holds no unsent chunk: what was loaded has been accepted. -/
theorem accepted_of_free {c : CgiState} {sent : Bytes} {ps : List Bytes} (h : Relay c sent ps)
    (hu : unsentChunk c = false) (he : c.eof = false) :
    ps = [] ∨ sent = builtHeader c ++ ps.flatMap chunk := by
  have hb := bodyLen_of_not_unsent h.writer hu
  have hr := ready_of_balanced h.toBalanced hb he
  by_cases hps : ps = []
  · exact Or.inl hps
  · have hout := hr.headerFirst hps hb
    have ht := hr.total
    rw [headerOwed, hout, Mem.slice_self, List.append_nil] at ht
    exact Or.inr ht

/-- The loop of the reader, put into the connection. -/
theorem readerLoop_sums {c : Conn} (h : CgiInv c) (hfd : c.r.cgi.outFd ≠ none)
    (answers : List (Ans Bytes)) {cgi : CgiState} {calls : List Call} {e : ReadExit}
    (hres : readerLoop c.r.cgi answers = (cgi, calls, e)) {c' : Conn} (htr : c'.tr = c.tr ++ calls)
    (hcgi : c'.r.cgi = cgi) : CgiSums c' ∧ (e ≠ .closeConn → CgiInv c') := by
  have hspec := readerLoop_spec h.relay hfd answers
  rw [hres] at hspec
  have hacc : accepted c'.tr = accepted c.tr := by
    rw [htr, accepted_append, hspec.silent, List.append_nil]
  subst hcgi
  have hsums : CgiSums c' := by
    refine ⟨?_, ?_, hspec.text h.text⟩
    · rw [hacc, htr, pieces_append]
      exact hspec.relay
    · rw [htr]
      by_cases hd : c.r.cgi.headersDone = true
      · rw [(hspec.built hd).2]
        refine guarded_append h.guarded fun t bs u heq => ?_
        obtain ⟨hu, hps⟩ := hspec.guarded t bs u heq
        have hsil := hspec.silent
        rw [heq, accepted_append] at hsil
        rw [pieces_append, accepted_append, hps, (List.append_eq_nil_iff.mp hsil).1,
          List.append_nil, List.append_nil]
        exact accepted_of_free h.relay hu (h.relay.fdOpen hfd)
      · -- Before the header is complete no piece was loaded.
        have hps := (h.relay.early (by simpa using hd)).2.2.1
        refine guarded_append (guarded_of_no_pieces hps) fun t bs u heq => Or.inl ?_
        rw [pieces_append, hps, (hspec.guarded t bs u heq).2]
        rfl
  refine ⟨hsums, fun he => ⟨hsums, fun hact => ?_⟩⟩
  rw [htr, pieces_append, pipeReads_append]
  exact hspec.tracks _ (h.tracks (hspec.active ▸ hact)) he

theorem cgiInv_stdoutReady {c : Conn} (h : CgiInv c) (answers : List (Ans Bytes)) (reaped : Bool) :
    CgiInv (zvCgiOnStdoutReady answers reaped c).1 := by
  unfold zvCgiOnStdoutReady
  split
  · exact h
  · next hopen =>
    have hfd : c.r.cgi.outFd ≠ none := fun hx => hopen (Or.inr hx)
    have h1 : CgiInv c.delTimer := cgiInv_quiet h ⟨rfl, rfl, rfl⟩ rfl rfl
    dsimp only
    rcases hres : readerLoop c.delTimer.r.cgi answers with ⟨cgi, calls, e⟩
    dsimp only
    generalize hc1 : (if cgi.outFd = none then _ else _ : Conn) = c1
    have htr : c1.tr = c.delTimer.tr ++ calls := by
      rw [← hc1]
      split <;> rfl
    have hcgi : c1.r.cgi = cgi := by
      rw [← hc1]
      split <;> rfl
    obtain ⟨hsums, hinv⟩ := readerLoop_sums h1 hfd answers hres htr hcgi
    cases e with
    | armClient =>
      exact cgiInv_quiet (hinv (fun hx => by cases hx)) (t := [.rearm .epollout, .addTimer _])
        ⟨rfl, rfl, rfl⟩ (List.append_assoc _ _ _) rfl
    | rearmPipe =>
      dsimp only
      split
      · exact cgiInv_quiet (hinv (fun hx => by cases hx)) (t := [.watchPipe, .addTimer _])
          ⟨rfl, rfl, rfl⟩ (List.append_assoc _ _ _) rfl
      · exact cgiInv_quiet (hinv (fun hx => by cases hx)) (t := [.addTimer _])
          ⟨rfl, rfl, rfl⟩ rfl rfl
    | closeConn => exact cgiInv_close hsums reaped
    | inCall => exact hinv (fun hx => by cases hx)

/-- With nothing loaded and the script still running the writer has nothing to do. -/
theorem writerLoop_idle {c : CgiState} (hb : c.bodyLen = 0) (he : c.eof = false)
    (answers : List (Ans Nat)) : writerLoop c answers = (c, [], .needMore) := by
  have hio : clientIov c = (c, none) := by simp [clientIov, hb, he]
  cases answers <;> simp [writerLoop, hio, writerEnd, he]

theorem onlyWrites_nil {calls : List Call} (h : ∀ call ∈ calls, ∃ bs, call = .writev bs) :
    pieces calls = [] ∧ pipeReads calls = [] := by
  constructor
  · refine List.filterMap_eq_nil_iff.mpr fun call hc => ?_
    obtain ⟨bs, rfl⟩ := h call hc
    rfl
  · refine List.filterMap_eq_nil_iff.mpr fun call hc => ?_
    obtain ⟨bs, rfl⟩ := h call hc
    rfl

/-- The loop of the writer moves bytes from what is owed to what is sent. -/
theorem writerLoop_relay {c : CgiState} {sent : Bytes} {ps : List Bytes} (h : Relay c sent ps)
    (answers : List (Ans Nat)) :
    Relay (writerLoop c answers).1 (sent ++ accepted (writerLoop c answers).2.1) ps := by
  have hspec := writerLoop_spec h.writer answers
  by_cases hd : c.headersDone = true
  · have hok := hspec.ok
    have hsent := hspec.sent
    have hout := hspec.headerOut
    obtain ⟨_, _, _, _, _, _, _, _, _, hfr⟩ := hspec.frame
    have hbh : builtHeader (writerLoop c answers).1 = builtHeader c := by rw [hfr]; rfl
    have hdone : (writerLoop c answers).1.headersDone = true := by rw [hfr]; exact hd
    refine ⟨⟨hok, ?_, h.nonempty, fun hne => hout (h.headerFirst hne)⟩, fun hx => ?_, ?_, ?_⟩
    · rw [hbh, List.append_assoc, hsent]
      exact h.total
    · exact absurd (hdone.symm.trans hx) (by simp)
    · rw [hfr]
      exact h.fdOpen
    · rw [hfr]
      exact h.hdrRoom
  · obtain ⟨_, hb, _, he⟩ := h.early (by simpa using hd)
    rw [writerLoop_idle hb he answers, accepted_nil, List.append_nil]
    exact h

theorem writerLoop_text {c : CgiState} (h : WriterOk c) (ht : BuiltLine c)
    (answers : List (Ans Nat)) : BuiltLine (writerLoop c answers).1 := by
  obtain ⟨_, _, _, _, _, _, _, _, _, hfr⟩ := (writerLoop_spec h answers).frame
  rw [hfr]
  exact ht

/-- The loop of the writer, put into the connection. -/
theorem writerLoop_inv {c : Conn} (h : CgiInv c) (answers : List (Ans Nat)) {c' : Conn}
    (htr : c'.tr = c.tr ++ (writerLoop c.r.cgi answers).2.1)
    (hcgi : c'.r.cgi = (writerLoop c.r.cgi answers).1) : CgiInv c' := by
  have hspec := writerLoop_spec h.relay.writer answers
  obtain ⟨hps, hrd⟩ := onlyWrites_nil hspec.onlyWrites
  have hpieces : pieces c'.tr = pieces c.tr := by
    rw [htr, pieces_append, hps, List.append_nil]
  have hrelay : Relay c'.r.cgi (accepted c'.tr) (pieces c'.tr) := by
    rw [hcgi, hpieces, htr, accepted_append]
    exact writerLoop_relay h.relay answers
  have htext : BuiltLine c'.r.cgi := hcgi ▸ writerLoop_text h.relay.writer h.text answers
  by_cases hd : c.r.cgi.headersDone = true
  · obtain ⟨_, _, _, _, _, _, _, _, _, hfr⟩ := hspec.frame
    rw [← hcgi] at hfr
    have hbh : builtHeader c'.r.cgi = builtHeader c.r.cgi := by rw [hfr]; rfl
    refine ⟨⟨hrelay, ?_, htext⟩, fun hact => ?_⟩
    · rw [hbh, htr]
      exact guarded_quiet h.guarded hrd
    · have ht := h.tracks (by rw [hfr] at hact; exact hact)
      rw [hpieces, htr, pipeReads_append, hrd, List.append_nil, hfr]
      exact ht.imp_right fun ⟨h1, h2, h3⟩ => ⟨h1, h2, fun hf =>
        absurd (hd.symm.trans (h1.trans hf)) (by simp)⟩
  · obtain ⟨_, hb, _, he⟩ := h.relay.early (by simpa using hd)
    have hidle := writerLoop_idle hb he answers
    rw [hidle] at htr hcgi
    exact cgiInv_quiet h ⟨rfl, rfl, rfl⟩ htr hcgi

theorem cgiInv_clientWritable {c : Conn} (h : CgiInv c) (answers : List (Ans Nat))
    (reaped : Bool) : CgiInv (zvCgiOnClientWritable answers reaped c).1 := by
  unfold zvCgiOnClientWritable
  split
  · exact h
  · dsimp only
    have hinv : CgiInv { c.emit (writerLoop c.r.cgi answers).2.1 with
        r := { c.r with cgi := (writerLoop c.r.cgi answers).1 } } :=
      writerLoop_inv h answers rfl rfl
    split
    · dsimp only
      split
      · exact cgiInv_quiet hinv (t := [.waitpid _ _]) ⟨rfl, rfl, rfl⟩ rfl rfl
      · exact cgiInv_quiet hinv (t := []) ⟨rfl, rfl, rfl⟩ rfl rfl
    · dsimp only
      split
      · exact cgiInv_quiet hinv (t := [.watchPipe]) ⟨rfl, rfl, rfl⟩ rfl rfl
      · exact hinv
    · exact hinv

theorem cgiInv_step {c : Conn} (h : CgiInv c) (ev : CgiEvent) : CgiInv (cgiStep c ev) := by
  cases ev with
  | stdoutReady answers reaped => exact cgiInv_stdoutReady h answers reaped
  | clientWritable answers reaped => exact cgiInv_clientWritable h answers reaped

/-- A callback only adds to the record. -/
theorem cgiStep_tr (c : Conn) (ev : CgiEvent) : c.tr <+: (cgiStep c ev).tr := by
  cases ev with
  | stdoutReady answers reaped =>
    show c.tr <+: (zvCgiOnStdoutReady answers reaped c).1.tr
    unfold zvCgiOnStdoutReady
    split
    · exact List.prefix_refl _
    · dsimp only
      generalize readerLoop c.delTimer.r.cgi answers = res
      obtain ⟨cgi, calls, e⟩ := res
      dsimp only
      generalize hc1 : (if cgi.outFd = none then _ else _ : Conn) = c1
      have h1 : c.tr <+: c1.tr := by
        have htr : c1.tr = c.tr ++ [.delTimer] ++ calls := by
          rw [← hc1]
          split <;> rfl
        rw [htr, List.append_assoc]
        exact List.prefix_append _ _
      cases e with
      | armClient => exact h1.trans ⟨_, (List.append_assoc _ [_] [_]).symm⟩
      | rearmPipe =>
        dsimp only
        split
        · exact h1.trans ⟨_, (List.append_assoc _ [_] [_]).symm⟩
        · exact h1.trans (List.prefix_append _ _)
      | closeConn =>
        obtain ⟨more, -, hmore⟩ := zvHttpCloseConn_tr reaped c1
        exact h1.trans ⟨more, hmore.symm⟩
      | inCall => exact h1
  | clientWritable answers reaped =>
    show c.tr <+: (zvCgiOnClientWritable answers reaped c).1.tr
    unfold zvCgiOnClientWritable
    split
    · exact List.prefix_refl _
    · dsimp only
      generalize writerLoop c.r.cgi answers = res
      obtain ⟨cgi, calls, e⟩ := res
      have h1 : c.tr <+: c.tr ++ calls := List.prefix_append _ _
      cases e with
      | finished => exact h1.trans (List.prefix_append _ _)
      | needMore =>
        dsimp only
        split
        · exact h1.trans (List.prefix_append _ _)
        · exact h1
      | wouldBlock => exact h1
      | error => exact h1
      | inCall => exact h1

theorem cgiInv_run {c : Conn} (h : CgiInv c) (evs : List CgiEvent) : CgiInv (cgiRun c evs) := by
  induction evs generalizing c with
  | nil => exact h
  | cons ev evs ih => exact ih (cgiInv_step h ev)

/-! ### Where a run begins -/

theorem zvCgiStart_cgi {env : CgiStartEnv} {file name : Bytes} {query : Option Bytes} {c : Conn}
    (h : (zvCgiStart env file name query c).2 = true) :
    ∃ pid outR, (zvCgiStart env file name query c).1.r.cgi = startedCgi c.r.cgi pid outR := by
  obtain ⟨inPipe, outPipe, fork, nonblocking⟩ := env
  rcases inPipe with _ | ⟨inR, inW⟩
  · cases h
  rcases outPipe with _ | ⟨outR, outW⟩
  · cases h
  rcases fork with _ | pid
  · cases h
  cases nonblocking with
  | false => cases h
  | true => exact ⟨pid, outR, rfl⟩

theorem started_cgi {c : Conn} (h : Started c) : c.tr = [] ∧ ∃ old fd cf pid outR,
    c.r.cgi = startedCgi (zvInitRequestT old fd cf).cgi pid outR := by
  obtain ⟨c0, old, fd, cf, env, file, name, query, hcgi, hok, rfl⟩ := h
  obtain ⟨pid, outR, hst⟩ := zvCgiStart_cgi hok
  exact ⟨rfl, old, fd, cf, pid, outR, hcgi ▸ hst⟩

theorem relay_started (old : Request) (fd : Fd) (cf : Conf) (pid : Pid) (outR : Fd) :
    Relay (startedCgi (zvInitRequestT old fd cf).cgi pid outR) [] [] := by
  refine ⟨⟨⟨Nat.le_refl 0, Nat.le_refl 0, Nat.le_refl 0, Nat.zero_le 2,
    fun hpos => absurd hpos (Nat.lt_irrefl 0), Or.inl ⟨rfl, rfl⟩,
    fun hpos => absurd hpos (Nat.lt_irrefl 0)⟩, ?_, fun p hp => absurd hp List.not_mem_nil,
    fun hne => absurd rfl hne⟩, fun _ => ⟨rfl, rfl, rfl, rfl⟩, fun _ => rfl, Nat.zero_le _⟩
  simp [owed, headerOwed, chunkOwed, finalOwed, builtHeader, startedCgi, zvInitRequestT]

theorem cgiInv_started {c : Conn} (h : Started c) : CgiInv c := by
  obtain ⟨htr, old, fd, cf, pid, outR, hst⟩ := started_cgi h
  refine ⟨⟨?_, fun t bs u heq => ?_, ?_⟩, fun _ => ?_⟩
  · rw [hst, htr]
    exact relay_started old fd cf pid outR
  · rw [htr] at heq
    exact absurd heq (by simp)
  · unfold BuiltLine
    rw [hst]
    exact fun hx => by cases hx
  · rw [hst, htr]
    exact Or.inr ⟨rfl, rfl, fun _ => ⟨rfl, rfl, by decide, by decide⟩⟩

/-- What a call that returns `0` has achieved. -/
theorem finished_sent {c c' : Conn} (h : CgiInv c) {answers : List (Ans Nat)} {reaped : Bool}
    (hfin : zvCgiOnClientWritable answers reaped c = (c', .finished)) :
    CgiInv c' ∧ c'.r.cgi.active = true ∧
      accepted c'.tr = builtHeader c'.r.cgi ++ encode (pieces c'.tr) := by
  have hinv := cgiInv_clientWritable h answers reaped
  have hspec := writerLoop_spec h.relay.writer answers
  rw [hfin] at hinv
  unfold zvCgiOnClientWritable at hfin
  split at hfin
  · cases (Prod.mk.inj hfin).2
  · next hact =>
    have hact : c.r.cgi.active = true := by simpa using hact
    rcases hloop : writerLoop c.r.cgi answers with ⟨cgi, calls, e⟩
    rw [hloop] at hfin hspec
    dsimp only at hfin
    cases e with
    | finished =>
      have hcgi : c'.r.cgi = cgi := congrArg (fun x => x.1.r.cgi) hfin.symm
      have howed : owed c'.r.cgi = [] := hcgi ▸ hspec.finished rfl
      refine ⟨hinv, ?_, ?_⟩
      · obtain ⟨_, _, _, _, _, _, _, _, _, hfr⟩ := hspec.frame
        dsimp only at hfr
        rw [hcgi, hfr]
        exact hact
      · have ht := hinv.relay.total
        rw [howed, List.append_nil] at ht
        exact ht
    | wouldBlock => cases (Prod.mk.inj hfin).2
    | needMore => cases (Prod.mk.inj hfin).2
    | error => cases (Prod.mk.inj hfin).2
    | inCall => cases (Prod.mk.inj hfin).2

theorem zvCgiOnClientWritable_snd {c : Conn} (hact : c.r.cgi.active = true)
    (answers : List (Ans Nat)) (reaped : Bool) :
    (zvCgiOnClientWritable answers reaped c).2 = (writerLoop c.r.cgi answers).2.2 := by
  unfold zvCgiOnClientWritable
  rw [if_neg (by simp [hact])]
  rcases writerLoop c.r.cgi answers with ⟨cgi, calls, e⟩
  cases e <;> rfl

/-- The decoder on a complete response. -/
theorem dechunk_finished {c : Conn} (h : CgiInv c)
    (hsent : accepted c.tr = builtHeader c.r.cgi ++ encode (pieces c.tr)) :
    dechunk ((accepted c.tr).drop (builtHeader c.r.cgi).length) =
      some (pieces c.tr).flatten := by
  rw [hsent, List.drop_left]
  exact dechunk_encode _ h.relay.nonempty

/-- While the script runs, no byte of the final chunk goes out. -/
theorem accepted_before_eof {c : CgiState} {sent : Bytes} {ps : List Bytes} (h : Relay c sent ps)
    (he : c.eof = false) : sent <+: builtHeader c ++ ps.flatMap chunk := by
  have hf := finalOwed_of_unsent h.writer (finalSent_of_not_eof h.writer he)
  have ht := h.total
  rw [owed, hf, ← List.append_assoc, ← List.append_assoc, ← List.append_assoc] at ht
  exact ⟨_, (List.append_assoc _ _ _).symm.trans (List.append_cancel_right ht)⟩

end CgiRelayLemmas

open CgiRelayLemmas

/-! ## The chunk writer is exact -/

/-- For every order of the callbacks of a running script and whatever its reads and
writes return:
the header is one that `build_http_header` wrote;
at any moment (`t` is the record up to then) the client has accepted a prefix of the
header, the chunks of the non-empty pieces and the final chunk, and no byte of the
latter before end of file;
whenever the pipe is read over the body buffer, every piece loaded so far has been
accepted;
a call whose `writev` calls take at least a byte, are interrupted or would block does
not fail, and returns once enough of them were not interrupted;
a call that returns `0` has sent everything, and the strict decoder recovers the pieces. -/
theorem cgi_chunk_writer_exact {c : Conn} (hc : Started c) (evs : List CgiEvent) {c' : Conn}
    (hrun : cgiRun c evs = c') :
    BuiltOk c'.r.cgi ∧ (∀ p ∈ pieces c'.tr, p ≠ []) ∧
    (∀ t, t <+: c'.tr → accepted t <+: builtHeader c'.r.cgi ++ encode (pieces c'.tr)) ∧
    (c'.r.cgi.eof = false →
      accepted c'.tr <+: builtHeader c'.r.cgi ++ (pieces c'.tr).flatMap chunk) ∧
    (∀ t bs u, c'.tr = t ++ .pipeRead bs :: u →
      pieces t = [] ∨ accepted t = builtHeader c'.r.cgi ++ (pieces t).flatMap chunk) ∧
    (c'.r.cgi.active = true → ∃ n, ∀ answers reaped, Working answers →
      (zvCgiOnClientWritable answers reaped c').2 ≠ .error ∧
      (n < uninterrupted answers →
        (zvCgiOnClientWritable answers reaped c').2 ∈
          [WriteExit.finished, WriteExit.wouldBlock, WriteExit.needMore])) ∧
    (∀ answers reaped c'', zvCgiOnClientWritable answers reaped c' = (c'', .finished) →
      accepted c''.tr = builtHeader c''.r.cgi ++ encode (pieces c''.tr) ∧
      dechunk ((accepted c''.tr).drop (builtHeader c''.r.cgi).length) =
        some (pieces c''.tr).flatten) := by
  have hinv : CgiInv c' := hrun ▸ cgiInv_run (cgiInv_started hc) evs
  refine ⟨hinv.text.ok, hinv.relay.nonempty, ?_, fun he => accepted_before_eof hinv.relay he,
    hinv.guarded, fun hact => ⟨(owed c'.r.cgi).length, fun answers reaped hw => ?_⟩, ?_⟩
  · rintro t ⟨u, hu⟩
    refine List.IsPrefix.trans ⟨accepted u, ?_⟩ ⟨owed c'.r.cgi, hinv.relay.total⟩
    rw [← accepted_append, hu]
  · obtain ⟨hne, hret⟩ := writerLoop_returns hinv.relay.writer hw
    rw [zvCgiOnClientWritable_snd hact]
    refine ⟨hne, fun hn => ?_⟩
    have hin := hret hn
    generalize (writerLoop c'.r.cgi answers).2.2 = e at hne hin
    cases e with
    | finished => simp
    | wouldBlock => simp
    | needMore => simp
    | error => exact absurd rfl hne
    | inCall => exact absurd rfl hin
  · intro answers reaped c'' hfin
    obtain ⟨hinv', _, hsent⟩ := finished_sent hinv hfin
    exact ⟨hsent, dechunk_finished hinv' hsent⟩

/-- The theorem on a run that reads a whole response and sends one byte of it. -/
theorem cgi_chunk_writer_exact_hello :
    accepted (cgiRun helloConn [.stdoutReady [.ok (ascii "Status: 404\n\nhi"), .eagain] false,
        .clientWritable [.eintr, .ok 1, .eagain] false]).tr <+:
      builtHeader (cgiRun helloConn [.stdoutReady [.ok (ascii "Status: 404\n\nhi"), .eagain] false,
        .clientWritable [.eintr, .ok 1, .eagain] false]).r.cgi ++
      encode (pieces (cgiRun helloConn [.stdoutReady [.ok (ascii "Status: 404\n\nhi"), .eagain] false,
        .clientWritable [.eintr, .ok 1, .eagain] false]).tr) :=
  (cgi_chunk_writer_exact helloConn_started
    [.stdoutReady [.ok (ascii "Status: 404\n\nhi"), .eagain] false,
      .clientWritable [.eintr, .ok 1, .eagain] false] rfl).2.2.1 _ (List.prefix_refl _)

end Zaver
