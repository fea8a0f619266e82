import Zaver.Connection

/-!
# Bytes left behind

A connection that waits for input should have parsed all it has received: the event it
waits for comes only with new bytes. `do_request` parses until nothing is left before it
waits. `do_write`, after a response that had been delayed, waits at once, with whatever
was received behind the request. `no_stranded_iff` says that this is the only way in
which bytes are left behind.
-/

namespace Zaver

open CString Runs ConnectionLemmas

/-- An open connection whose socket waits for input has parsed everything it received. -/
def NothingStranded (c : Conn) : Prop :=
  c.isOpen = true → c.sock.waits .epollin = true → c.r.inp.parsePos = c.r.inp.last

/-- A `do_write` that completes a response and keeps the connection begins with nothing
unparsed. -/
def ResumesParsed (c : Conn) : ConnAct → Prop
  | .write e => c.r.cgi.active = false → c.r.out.keepAlive = true →
      (trySend e.send c.r.out).2.2 = .done → c.r.inp.parsePos = c.r.inp.last
  | _ => True

namespace StrandedLemmas

theorem doRequest_parsed {lib : Libc} {es : List PassEnv} {c c' : Conn} (h : AtLoop c)
    (hd : doRequest lib es c = (c', true)) : NothingStranded c' := by
  rcases doRequest_cases h hd with ⟨c₂, ms, -, hpos, rfl⟩ | ⟨-, hw⟩
  · exact fun _ _ => hpos
  · exact fun _ hx => by cases hw.symm.trans hx

theorem nothingStranded_off {c : Conn} (h : c.sock.waits .epollin = false) : NothingStranded c :=
  fun _ hx => by cases h.symm.trans hx

/-- A `do_write` waits for input only after a response that it has completed. -/
theorem writeStatic_parsed {e : WriteEnv} {c c' : Conn} (hw : writeStatic e c = (c', true))
    (hpos : c.r.out.keepAlive = true → (trySend e.send c.r.out).2.2 = .done →
      c.r.inp.parsePos = c.r.inp.last) : NothingStranded c' := by
  unfold writeStatic at hw
  split at hw
  · obtain rfl := (Prod.mk.inj hw).1
    exact nothingStranded_off rfl
  · obtain rfl := (Prod.mk.inj hw).1
    exact nothingStranded_off rfl
  · cases congrArg Prod.snd hw
  · next c₂ hs =>
    have hdone : (trySend e.send c.r.out).2.2 = .done := congrArg Prod.snd hs
    obtain ⟨_, _, _, _, -, rfl⟩ := trySend_frame hs
    dsimp only at hw
    split at hw
    · obtain rfl := (Prod.mk.inj hw).1
      exact nothingStranded_off rfl
    · next hka =>
      obtain rfl := (Prod.mk.inj hw).1
      exact fun _ _ => hpos (Bool.eq_true_of_not_eq_false hka) hdone

/-- A `do_write` that completes a response and keeps the connection waits for input with
the window as it was. -/
theorem writeStatic_waits {e : WriteEnv} {c c' : Conn} (hopen : c.isOpen = true)
    (hka : c.r.out.keepAlive = true) (hdone : (trySend e.send c.r.out).2.2 = .done)
    (hw : writeStatic e c = (c', true)) (hn : NothingStranded c') :
    c.r.inp.parsePos = c.r.inp.last := by
  unfold writeStatic at hw
  split at hw
  · next hs => cases (congrArg Prod.snd hs).symm.trans hdone
  · next hs => cases (congrArg Prod.snd hs).symm.trans hdone
  · next hs => cases (congrArg Prod.snd hs).symm.trans hdone
  · next c₂ hs =>
    obtain ⟨_, _, _, _, -, rfl⟩ := trySend_frame hs
    have hkeep : ¬ c.r.out.keepAlive = false := by
      rw [hka]
      exact fun hx => by cases hx
    dsimp only at hw
    split at hw
    · next hx => exact absurd hx hkeep
    · obtain rfl := (Prod.mk.inj hw).1
      exact hn hopen rfl

theorem write_parsed {c c' : Conn} {e : WriteEnv} (h : Phase c) (hf : c.sock = .fired .epollout)
    (hd : doWrite e { c with sock := .off } = (c', true)) (hr : ResumesParsed c (.write e)) :
    NothingStranded c' := by
  unfold doWrite at hd
  cases h with
  | writing hopen hsock hpipe hout hcgi hwin =>
    have hact : ¬ c.r.cgi.active = true := by
      rw [noScript_active hcgi]
      exact fun hx => by cases hx
    exact writeStatic_parsed ((if_neg hact).symm.trans hd) (hr (noScript_active hcgi))
  | cgiWriting hopen hsock hpipe hs hbuilt hfd =>
    have hs' : Script { c with sock := .off }.delTimer :=
      script_quiet [.delTimer] hs ⟨rfl, rfl, rfl⟩ (by simp [Call.isServe]) rfl rfl
    have hw' : writeCgi e { c with sock := .off }.delTimer = (c', true) :=
      (if_pos hs.active).symm.trans hd
    exact nothingStranded_off (writeCgi_phase (c := { c with sock := .off }.delTimer) hopen rfl hpipe
      hs' hbuilt hfd hw').2
  | reading hopen hsock => cases fired_waits hf hsock
  | cgiReading hopen hsock | closed hopen hsock => cases hf.symm.trans hsock

theorem step_parsed {lib : Libc} {c c' : Conn} {a : ConnAct} (h : Phase c)
    (hn : NothingStranded c) (hr : ResumesParsed c a) (hstep : connStep lib c a = some c') :
    NothingStranded c' := by
  cases connStep_cases hstep with
  | takeSocket g hg =>
    intro hopen hw
    refine hn hopen ?_
    cases hs : c.sock with
    | off =>
      rw [hs] at hg
      cases hg
    | fired ev =>
      rw [hs] at hg
      cases hg
    | armed ev =>
      rw [hs] at hg
      obtain rfl := Option.some.inj hg
      have hev : ev = .epollin := by simpa [Reg.waits] using hw
      rw [hev]
      rfl
  | takePipe g hg => exact hn
  | request es _ hf hd =>
    cases h with
    | reading hopen hsock hpipe hout hcgi hwin =>
      exact doRequest_parsed (c := { c with sock := .off }) ⟨⟨hopen, rfl, hpipe, hcgi, hwin⟩, hout⟩ hd
    | writing hopen hsock | cgiWriting hopen hsock => cases fired_waits hf hsock
    | cgiReading hopen hsock | closed hopen hsock => cases hf.symm.trans hsock
  | write e _ hf hd => exact write_parsed h hf hd hr
  | stdout answers reaped _ hf hd =>
    cases h with
    | cgiReading hopen hsock hpipe hs hfd hu =>
      exact nothingStranded_off (stdoutReady_phase (c := { c with pipe := .off }) hopen hsock rfl
        ⟨hs.active, hs.relay, hs.text⟩ hfd hu hd).2
    | reading hopen hsock hpipe | writing hopen hsock hpipe | cgiWriting hopen hsock hpipe
    | closed hopen hsock hpipe => cases hf.symm.trans hpipe
  | hangup ev reaped hf => exact nothingStranded_off rfl
  | expire reaped hopen => exact nothingStranded_off rfl

/-- The converse for one step: a `do_write` that resumes with bytes unparsed strands them. -/
theorem resumes_of_step {lib : Libc} {c c' : Conn} {a : ConnAct} (h : Phase c)
    (hstep : connStep lib c a = some c') (hn : NothingStranded c') : ResumesParsed c a := by
  cases connStep_cases hstep with
  | write e _ hf hd =>
    intro hcgi hka hdone
    have hact : ¬ c.r.cgi.active = true := by
      rw [hcgi]
      exact fun hx => by cases hx
    have hopen : c.isOpen = true := by
      cases h with
      | reading hopen | writing hopen | cgiReading hopen | cgiWriting hopen => exact hopen
      | closed hopen hsock => cases hf.symm.trans hsock
    have hw : writeStatic e { c with sock := .off }.delTimer = (c', true) :=
      (if_neg hact).symm.trans hd
    exact writeStatic_waits (c := { c with sock := .off }.delTimer) hopen hka hdone hw hn
  | takeSocket | takePipe | request | stdout | hangup | expire => trivial

end StrandedLemmas

open StrandedLemmas

/-- Nothing is ever stranded exactly when every `do_write` that completes a response and
keeps the connection begins with nothing unparsed. -/
theorem no_stranded_iff {lib : Libc} {old : Request} {fd : Fd} {cf : Conf} {acts : List ConnAct}
    {c : Conn} (hrun : run (connStep lib) (acceptConn old fd cf) acts = some c) :
    (∀ pre post c', acts = pre ++ post → run (connStep lib) (acceptConn old fd cf) pre = some c' →
      NothingStranded c') ↔
    Along (connStep lib) ResumesParsed (acceptConn old fd cf) acts := by
  refine always_iff_along (fun _ _ _ => connStep_phase) ?_ (phase_accept old fd cf)
    (fun _ _ => rfl) hrun
  intro c₁ a c₂ hphase hparsed hstep
  exact ⟨resumes_of_step hphase hstep, fun hr => step_parsed hphase hparsed hr hstep⟩

/-- A pass that reads the bytes `text`, finds no file, and can send nothing. -/
def blockedPass (text : Bytes) : PassEnv where
  read := .ok text
  malloc := true
  stat := none
  realpath := fun _ => none
  openAns := none
  send := ⟨[.eagain], []⟩
  start := ⟨none, none, none, false⟩
  outMtime := 0
  tmIsdst := fun _ => 0
  reaped := false

/-- Two requests arrive together; the response to the first one is delayed once. -/
def pipelined : List ConnAct :=
  [.takeSocket,
    .request [blockedPass (ascii "GET /a HTTP/1.1\r\n\r\nGET /b HTTP/1.1\r\n\r\n")],
    .takeSocket, .write ⟨⟨[.ok 10000], []⟩, [], false, false⟩]

theorem no_stranded_iff_hello :
    let acts := [ConnAct.takeSocket, .request [blockedPass (ascii "GET /a HTTP/1.1\r\n\r\n")],
      .takeSocket, .write ⟨⟨[.ok 10000], []⟩, [], false, false⟩]
    let start := acceptConn Request.zero 7 ⟨some (ascii "/srv"), 0, 0⟩
    ∃ c, run (connStep sampleLib) start acts = some c ∧
      ((∀ pre post c', acts = pre ++ post → run (connStep sampleLib) start pre = some c' →
        NothingStranded c') ↔ Along (connStep sampleLib) ResumesParsed start acts) := by
  intro acts start
  have hsome : (run (connStep sampleLib) start acts).isSome = true := by decide +kernel
  obtain ⟨c, hc⟩ := Option.isSome_iff_exists.mp hsome
  exact ⟨c, hc, no_stranded_iff hc⟩

/-- The second request is in the buffer, complete, while the connection waits for input. -/
theorem pipelined_stranded : ∃ c, Reached sampleLib c ∧ ¬ NothingStranded c := by
  have hrun : (run (connStep sampleLib) (acceptConn Request.zero 7 ⟨some (ascii "/srv"), 0, 0⟩)
      pipelined).map (fun c => (c.isOpen, c.sock, c.r.inp.parsePos, c.r.inp.last)) =
      some (true, .armed .epollin, 0, 19) := by decide +kernel
  obtain ⟨c, hc, hfields⟩ := Option.map_eq_some_iff.mp hrun
  obtain ⟨hopen, hsock, hpos, hlast⟩ := by simpa using hfields
  refine ⟨c, ⟨_, _, _, _, hc⟩, fun h => ?_⟩
  have heq := h hopen (by rw [hsock]; rfl)
  rw [hpos, hlast] at heq
  cases heq

end Zaver
