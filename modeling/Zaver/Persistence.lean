import Zaver.Connection

/-!
# Advertised and actual persistence

Whether a connection stays is decided more than once. The header of a response says it;
the flag in `zv_http_request_t` is looked at when the last byte went out, in `do_request` or
later in `do_write`; and a good number of branches close the connection whatever the flag.

`Settled` says of a state that the response to the last request is a part of one that was
prepared, and that either some of it is left to send or the connection is open exactly when
that response was prepared to keep it. Every call that sends leaves the connection settled.
For a script the header is fixed and the connection closes.

Results:
1. `reached_owing`: a response that waits for room in the socket is one that was prepared.
2. `persistence_as_advertised`: when the last byte of a response goes out, the connection is
   closed exactly if the header that was sent says so.
-/

namespace Zaver

open CString Chunked HeaderBlock Runs

/-! ## Whole responses -/

/-- The header says that the body is chunked. -/
def saysChunked (header : Bytes) : Bool :=
  field (ascii "Transfer-Encoding: ") header == some (ascii "chunked")

/-- The whole body stands behind the header. -/
def WholeBody (header payload : Bytes) : Prop :=
  if saysChunked header then (dechunk payload).isSome = true else payload.length = announced header

/-- What the client accepted of the response to the last request. -/
def response (c : Conn) : Bytes := accepted (sinceServe c.tr)

/-- The calls in which the server writes to a client: a pass of `do_request`, behind any number
of earlier ones, and `do_write`. -/
inductive Turn (lib : Libc) : Conn → Conn → Prop
  | pass (c c₁ c' : Conn) (es : List PassEnv) (e : PassEnv) (x : PassExit) : Reached lib c →
      c.sock = .fired .epollin → passes lib { c with sock := .off }.delTimer es = some c₁ →
      requestPass lib e c₁ = (c', x) → Turn lib c₁ c'
  | write (c c' : Conn) (e : WriteEnv) (b : Bool) : Reached lib c → c.sock = .fired .epollout →
      doWrite e { c with sock := .off } = (c', b) → Turn lib c c'

/-- The response to the last request is a part of a prepared one. Some of it is left, or the
connection is as that response says. -/
def Settled (lib : Libc) (c : Conn) : Prop :=
  ∃ o₀ o, Composed lib o₀ ∧ SendCompleteLemmas.Sending o₀ o (response c) ∧
    (SendCompleteLemmas.Short o ∨ c.isOpen = o₀.keepAlive)

/-- A response that waits for room in the socket is one that was prepared. -/
def Owing (lib : Libc) (c : Conn) : Prop :=
  c.isOpen = true → c.r.out.writing = true → c.r.cgi.active = false →
    ∃ o₀, Composed lib o₀ ∧ SendCompleteLemmas.Sending o₀ c.r.out (response c)

/-- A call that sends nothing and is no mark. -/
def Call.isSilent : Call → Bool
  | .writev _ => false
  | .sendfile _ => false
  | .serve _ _ => false
  | _ => true

namespace PersistenceLemmas

open SendCompleteLemmas AnswerLemmas ConnectionLemmas ResponseHeaderLemmas
open CgiReaderLemmas CgiRelayLemmas ChunkWriterLemmas

/-! ### Calls that send nothing -/

theorem accepted_silent {calls : List Call} (h : ∀ x ∈ calls, x.isSilent = true) :
    accepted calls = [] := by
  refine List.flatMap_eq_nil_iff.mpr fun x hx => ?_
  have hs := h x hx
  cases x with
  | writev bs => cases hs
  | sendfile bs => cases hs
  | _ => rfl

theorem silent_not_serve {calls : List Call} (h : ∀ x ∈ calls, x.isSilent = true) :
    ∀ x ∈ calls, x.isServe = false := by
  intro x hx
  have hs := h x hx
  cases x with
  | serve q m => cases hs
  | _ => rfl

theorem response_silent {c c' : Conn} (h : Adds Call.isSilent c c') : response c' = response c := by
  obtain ⟨calls, htr, hs⟩ := h
  unfold response
  rw [htr, sinceServe_append (silent_not_serve hs), accepted_append, accepted_silent hs,
    List.append_nil]

theorem closeFd_silent (fd : Option Fd) : ∀ x ∈ closeFd fd, x.isSilent = true := by
  cases fd with
  | none => exact fun _ hx => absurd hx List.not_mem_nil
  | some fd => simp [closeFd, Call.isSilent]

theorem reset_silent (c : Conn) : Adds Call.isSilent c c.reset :=
  ⟨closeFd c.r.out.outFileFd, rfl, closeFd_silent _⟩

theorem freeCgi_silent (reaped : Bool) (c : CgiState) :
    ∀ x ∈ (freeCgi reaped c).2, x.isSilent = true := by
  intro x hx
  unfold freeCgi at hx
  split at hx
  · cases List.mem_append.mp hx with
    | inl hx =>
      cases hp : c.pid with
      | none => simp [hp] at hx
      | some pid =>
        simp only [hp, List.mem_cons, List.not_mem_nil, or_false] at hx
        rcases hx with rfl | rfl
        · rfl
        · rfl
    | inr hx => exact closeFd_silent _ x hx
  · exact absurd hx List.not_mem_nil

theorem closeConn_silent (reaped : Bool) (c : Conn) :
    Adds Call.isSilent c (zvHttpCloseConn reaped c) := by
  refine ⟨_, rfl, fun x hx => ?_⟩
  simp only [List.mem_append, List.mem_singleton] at hx
  rcases hx with ((hx | hx) | hx) | rfl
  · exact closeFd_silent _ x hx
  · exact freeCgi_silent _ _ x hx
  · exact closeFd_silent _ x hx
  · rfl

theorem closeLabel_silent (reaped : Bool) (c : Conn) :
    Adds Call.isSilent c (c.closeLabel reaped) :=
  adds_trans (reset_silent c) (closeConn_silent reaped c.reset)

theorem waitOutput_silent (c : Conn) : Adds Call.isSilent c c.waitOutput :=
  ⟨[.rearm .epollout, .addTimer c.r.requestTimeoutMs], List.append_assoc _ _ _,
    by simp [Call.isSilent]⟩

/-! ### The header of a prepared response -/

theorem connectionFields_unchunked (keepAlive : Bool) (ms : Nat) :
    ∀ l ∈ connectionFields keepAlive ms, ¬ ascii "Transfer-Encoding: " <+: l := by
  intro l hl
  unfold connectionFields at hl
  cases keepAlive with
  | true =>
    rw [if_pos rfl] at hl
    rcases List.mem_cons.mp hl with rfl | hl
    · decide
    · obtain rfl := List.mem_singleton.mp hl
      exact other_name 1 (by decide) _
  | false =>
    rw [if_neg (fun h => by cases h)] at hl
    obtain rfl := List.mem_singleton.mp hl
    decide

theorem errorFields_unchunked (page : ErrorPage) (keepAlive : Bool) (ms : Nat) :
    ∀ l ∈ errorFields page keepAlive ms, ¬ ascii "Transfer-Encoding: " <+: l := by
  intro l hl
  unfold errorFields at hl
  simp only [List.mem_append, List.mem_cons, List.not_mem_nil, or_false] at hl
  rcases hl with ((rfl | rfl | rfl) | hl) | rfl
  · rw [List.append_assoc, List.append_assoc]
    exact other_name 1 (by decide) _
  · decide
  · decide
  · exact connectionFields_unchunked keepAlive ms l hl
  · exact other_name 1 (by decide) _

theorem staticFields_unchunked (strftime : Int → Bytes) (filename : Bytes) (filesize : UInt64)
    (out : HttpOut) (ms : Nat) :
    ∀ l ∈ staticFields strftime filename filesize out ms, ¬ ascii "Transfer-Encoding: " <+: l := by
  intro l hl
  unfold staticFields at hl
  simp only [List.mem_append, List.mem_singleton] at hl
  rcases hl with ((rfl | hl) | hl) | rfl
  · rw [List.append_assoc, List.append_assoc]
    exact other_name 1 (by decide) _
  · exact connectionFields_unchunked out.keepAlive ms l hl
  · split at hl
    · simp only [List.mem_cons, List.not_mem_nil, or_false] at hl
      rcases hl with rfl | rfl | rfl
      · exact other_name 1 (by decide) _
      · exact other_name 1 (by decide) _
      · exact other_name 1 (by decide) _
    · exact absurd hl List.not_mem_nil
  · decide

/-- A reader cuts the header of a prepared response off, and sees no chunked body. -/
theorem composed_header {lib : Libc} {o : Output} (h : Composed lib o) :
    (∀ rest, cutHeader (headerText o ++ rest) = some (headerText o, rest)) ∧
      saysChunked (headerText o) = false := by
  have hblock : ∀ ls : List Bytes, ls ≠ [] → (∀ l ∈ ls, PlainLine l) →
      (∀ l ∈ ls, ¬ ascii "Transfer-Encoding: " <+: l) →
      (∀ rest, cutHeader (block ls ++ rest) = some (block ls, rest)) ∧
        saysChunked (block ls) = false := by
    intro ls hne hplain hno
    refine ⟨fun rest => cutHeader_block (fun l hl => ⟨(hplain l hl).ne, (hplain l hl).lf⟩) hne rest, ?_⟩
    unfold saysChunked
    rw [field_none (by decide) (by decide) fun l hl => ⟨(hplain l hl).lf, hno l hl⟩]
    rfl
  cases h with
  | error page keepAlive ms o hst =>
    rw [headerText_prepareError hst]
    exact hblock _ (by simp [errorFields]) (errorFields_plain hst keepAlive ms)
      (errorFields_unchunked page keepAlive ms)
  | static openAns filename filesize out ms o hst hok =>
    obtain ⟨hcr, hlf⟩ := lib.strftime_plain out.mtime
    have hlt : out.status < 2 ^ 31 := by
      rw [hst]
      split <;> decide
    rw [headerText_prepareStatic (lib.strftime_lt _) hlt]
    exact hblock _ (by simp [staticFields]) (staticFields_plain hcr hlf filename filesize ms)
      (staticFields_unchunked lib.strftime filename filesize out ms)

/-- The header that the client cuts off is the prepared one, and with a whole body behind it
nothing is left to send. -/
theorem sending_cut {lib : Libc} {o₀ o : Output} {acc header payload : Bytes}
    (hcomp : Composed lib o₀) (hs : Sending o₀ o acc)
    (hcut : cutHeader acc = some (header, payload)) :
    header = headerText o₀ ∧ (WholeBody header payload → ¬ Short o) := by
  obtain ⟨hhead, hplain⟩ := composed_header hcomp
  obtain ⟨hann, -⟩ := hcomp.prepared.read
  obtain ⟨file, hacc, hoff, hfirst, hfd⟩ := hs.parts
  rw [(sending_prepared hcomp.prepared).2, List.append_assoc] at hacc
  have hext := cutHeader_extend hcut (memOwed o)
  rw [hacc, hhead] at hext
  obtain ⟨hh, hp⟩ := Prod.mk.inj (Option.some.inj hext)
  refine ⟨hh.symm, fun hw hshort => ?_⟩
  rw [WholeBody, ← hh, hplain, if_neg (fun hx => by cases hx), hann, payloadSize] at hw
  have hlen := congrArg List.length hp
  rw [List.length_append, List.length_append] at hlen
  obtain ⟨_, _, _, _, hframe⟩ := hs.frame
  by_cases hmem : memOwed o = []
  · -- The memory is out, so a part of the file is missing.
    have hpend := hshort.resolve_left fun hx => hx hmem
    obtain ⟨hsome, hlt⟩ := Bool.and_eq_true_iff.mp hpend
    have hlt : o.outFileOffset < o.outFileSize := of_decide_eq_true hlt
    rw [hframe] at hsome
    rw [if_pos hsome] at hw
    rw [hmem, List.length_nil] at hlen
    have hsize : o.outFileSize = o₀.outFileSize := by rw [hframe]
    omega
  · have hnil := hfirst hmem
    rw [hnil, List.length_nil] at hlen
    have hpos := List.length_pos_iff.mpr hmem
    omega

/-! ### `try_send` -/

theorem trySend_response {o₀ : Output} {c c₂ : Conn} {e : SendEnv} {rc : SendRc}
    (hs : Sending o₀ c.r.out (response c)) (h : c.trySend e = (c₂, rc)) :
    Sending o₀ c₂.r.out (response c₂) ∧ (rc ≠ .done → Short c₂.r.out) ∧
      (rc = .done → memOwed c₂.r.out = [] ∧
        (filePending c₂.r.out = true → Call.sendfile [] ∈ c₂.tr)) := by
  obtain ⟨hnew, -, hdone⟩ := trySend_spec hs e
  have hsends := trySend_sends e c.r.out
  have hshort := fun hrc => @trySend_short _ hs.ok e hrc
  have hserve : ∀ x ∈ (trySend e c.r.out).2.1, x.isServe = false := by
    intro x hx
    have hx := hsends x hx
    cases x with
    | serve q m => cases hx
    | _ => rfl
  obtain ⟨rfl, rfl⟩ := Prod.mk.inj h
  refine ⟨?_, hshort, fun hrc => ⟨(hdone hrc).1, fun hp => ?_⟩⟩
  swap
  · exact List.mem_append_right c.tr ((hdone hrc).2.mpr hp)
  have hresp : response (c.trySend e).1 = response c ++ accepted (trySend e c.r.out).2.1 := by
    show accepted (sinceServe (c.tr ++ (trySend e c.r.out).2.1)) = _
    rw [sinceServe_append hserve, accepted_append]
    rfl
  show Sending o₀ (trySend e c.r.out).1 (response (c.trySend e).1)
  rw [hresp]
  exact hnew

theorem sending_writing {o₀ o : Output} {acc : Bytes} (h : Sending o₀ o acc) :
    Sending o₀ { o with writing := true } acc :=
  ⟨⟨h.ok.header, h.ok.body⟩, h.frame.trans ⟨_, _, _, _, rfl⟩, h.bound, h.parts⟩

theorem sending_keepAlive {o₀ o : Output} {acc : Bytes} (h : Sending o₀ o acc) :
    o.keepAlive = o₀.keepAlive := by
  obtain ⟨_, _, _, _, rfl⟩ := h.frame
  rfl

end PersistenceLemmas

open PersistenceLemmas SendCompleteLemmas AnswerLemmas ConnectionLemmas

/-- How the functions that send the response `o₀` leave the connection: closed with a part of
it unsent, waiting for room in the socket, with all of it handed over, or inside a call. The
last component is false in the last case. -/
inductive Delivered (o₀ : Output) (c' : Conn) : Bool → Prop
  | short (c : Conn) : Sending o₀ c.r.out (response c) → Short c.r.out →
      Adds Call.isSilent c c' → c'.isOpen = false → Delivered o₀ c' true
  | waits (c : Conn) : Sending o₀ c.r.out (response c) → Short c.r.out →
      Adds Call.isSilent c c' → c'.r.out = { c.r.out with writing := true } → Delivered o₀ c' true
  | sent (c : Conn) : Sending o₀ c.r.out (response c) → memOwed c.r.out = [] →
      (filePending c.r.out = true → Call.sendfile [] ∈ c'.tr) → Adds Call.isSilent c c' →
      c'.isOpen = o₀.keepAlive → c'.r.out.writing = false → Delivered o₀ c' true
  | inCall : Sending o₀ c'.r.out (response c') → Short c'.r.out → Delivered o₀ c' false

theorem Delivered.settled {lib : Libc} {o₀ : Output} {c' : Conn} {b : Bool}
    (h : Delivered o₀ c' b) (hcomp : Composed lib o₀) : Settled lib c' := by
  cases h with
  | short c hs hshort hsil hclosed =>
    exact ⟨o₀, c.r.out, hcomp, (response_silent hsil).symm ▸ hs, .inl hshort⟩
  | waits c hs hshort hsil hout =>
    exact ⟨o₀, c.r.out, hcomp, (response_silent hsil).symm ▸ hs, .inl hshort⟩
  | sent c hs hmem hfile hsil hkeep hidle =>
    exact ⟨o₀, c.r.out, hcomp, (response_silent hsil).symm ▸ hs, .inr hkeep⟩
  | inCall hs hshort => exact ⟨o₀, c'.r.out, hcomp, hs, .inl hshort⟩

theorem Delivered.owing {lib : Libc} {o₀ : Output} {c' : Conn} {b : Bool}
    (h : Delivered o₀ c' b) (hcomp : Composed lib o₀) : Owing lib c' := by
  cases h with
  | short c hs hshort hsil hclosed => exact fun hopen => by cases hopen.symm.trans hclosed
  | waits c hs hshort hsil hout =>
    refine fun _ _ _ => ⟨o₀, hcomp, ?_⟩
    rw [hout, response_silent hsil]
    exact sending_writing hs
  | sent c hs hmem hfile hsil hkeep hidle => exact fun _ hw => by cases hw.symm.trans hidle
  | inCall hs hshort => exact fun _ _ _ => ⟨o₀, hcomp, hs⟩

namespace PersistenceLemmas

open ResponseHeaderLemmas CgiReaderLemmas CgiRelayLemmas ChunkWriterLemmas

/-! ### The static branch -/

theorem mem_adds {P : Call → Bool} {c c' : Conn} (h : Adds P c c') {x : Call} (hx : x ∈ c.tr) :
    x ∈ c'.tr := by
  obtain ⟨calls, htr, -⟩ := h
  rw [htr]
  exact List.mem_append_left _ hx

theorem requestDone_delivered {o₀ : Output} {e : PassEnv} {c : Conn}
    (hs : Sending o₀ c.r.out (response c)) (hmem : memOwed c.r.out = [])
    (hfile : filePending c.r.out = true → Call.sendfile [] ∈ c.tr) (hw : Window c.r.inp)
    (hopen : c.isOpen = true) : Delivered o₀ (requestDone e o₀.keepAlive c.reset).1 true := by
  have hpos : ¬ c.reset.r.inp.parsePos > c.reset.r.inp.last := Nat.not_lt.mpr hw.pos
  unfold requestDone
  rw [if_neg hpos]
  dsimp only
  split
  · next hwr => cases hwr
  · split
    · next hka =>
      have hsil := adds_trans (reset_silent c) (closeLabel_silent e.reaped
        { c.reset with r := { c.reset.r with inp := c.reset.r.inp.nextRequest } })
      exact .sent c hs hmem (fun hp => mem_adds hsil (hfile hp)) hsil hka.symm rfl
    · next hka =>
      have hka : o₀.keepAlive = true := Bool.eq_true_of_not_eq_false hka
      exact .sent c hs hmem (fun hp => mem_adds (reset_silent c) (hfile hp)) (reset_silent c)
        (hopen.trans hka.symm) rfl

theorem deliver_delivered {e : PassEnv} {last : Bool} {c : Conn} (hprep : Prepared c.r.out)
    (hresp : response c = []) (hin : Inside c) (hlast : last = true → c.r.out.keepAlive = false) :
    Delivered c.r.out (deliver e last c.r.out.keepAlive c).1
      (decide ((deliver e last c.r.out.keepAlive c).2 ≠ .inCall)) := by
  have hs₀ : Sending c.r.out c.r.out (response c) := hresp.symm ▸ (sending_prepared hprep).1
  unfold deliver
  rcases hsend : c.trySend e.send with ⟨c₂, rc⟩
  obtain ⟨hs, hshort, hdone⟩ := trySend_response hs₀ hsend
  obtain ⟨_, _, _, _, -, hframe⟩ := trySend_frame hsend
  have hopen : c₂.isOpen = true := by
    rw [hframe]
    exact hin.isOpen
  have hwin : Window c₂.r.inp := by
    rw [hframe]
    exact hin.window
  cases rc with
  | fail =>
    exact .short c₂ hs (hshort (fun hx => by cases hx)) (closeLabel_silent e.reaped c₂) rfl
  | inCall => exact .inCall hs (hshort (fun hx => by cases hx))
  | again =>
    have hsh := hshort (fun hx => by cases hx)
    dsimp only
    split
    · exact .waits c₂ hs hsh (waitOutput_silent c₂.setWriting) rfl
    · unfold requestDone
      split
      · exact .short c₂ hs hsh (closeLabel_silent e.reaped c₂.setWriting) rfl
      · exact .waits c₂ hs hsh (waitOutput_silent
          { c₂.setWriting with r := { c₂.setWriting.r with inp := c₂.setWriting.r.inp.nextRequest } })
          rfl
  | done =>
    obtain ⟨hmem, hfile⟩ := hdone rfl
    dsimp only
    split
    · next hl =>
      have hsil := closeLabel_silent e.reaped c₂
      exact .sent c₂ hs hmem (fun hp => mem_adds hsil (hfile hp)) hsil (hlast hl).symm rfl
    · have hend := requestDone_delivered (e := e) hs hmem hfile hwin hopen
      have hret : (requestDone e c.r.out.keepAlive c₂.reset).2 ≠ .inCall := by
        unfold requestDone
        split_ifs <;> exact fun hx => by cases hx
      rw [decide_eq_true hret]
      exact hend

theorem writeStatic_delivered {o₀ : Output} {e : WriteEnv} {c : Conn}
    (hs₀ : Sending o₀ c.r.out (response c)) (hopen : c.isOpen = true) :
    Delivered o₀ (writeStatic e c).1 (writeStatic e c).2 := by
  unfold writeStatic
  rcases hsend : c.trySend e.send with ⟨c₂, rc⟩
  obtain ⟨hs, hshort, hdone⟩ := trySend_response hs₀ hsend
  obtain ⟨_, _, _, _, -, hframe⟩ := trySend_frame hsend
  have hopen₂ : c₂.isOpen = true := by
    rw [hframe]
    exact hopen
  cases rc with
  | fail =>
    exact .short c₂ hs (hshort (fun hx => by cases hx)) (closeLabel_silent e.reapedFree c₂) rfl
  | inCall => exact .inCall hs (hshort (fun hx => by cases hx))
  | again => exact .waits c₂ hs (hshort (fun hx => by cases hx)) (waitOutput_silent c₂.setWriting) rfl
  | done =>
    obtain ⟨hmem, hfile⟩ := hdone rfl
    have hkeep : c₂.r.out.keepAlive = o₀.keepAlive := sending_keepAlive hs
    dsimp only
    split
    · next hka =>
      have hsil := adds_trans (reset_silent c₂) (closeConn_silent e.reapedFree c₂.reset)
      exact .sent c₂ hs hmem (fun hp => mem_adds hsil (hfile hp)) hsil (hka.symm.trans hkeep) rfl
    · next hka =>
      have hka : c₂.r.out.keepAlive = true := Bool.eq_true_of_not_eq_false hka
      have hsil : Adds Call.isSilent c₂
          ((c₂.reset.rearmEvent .epollin).addTimer c₂.reset.r.keepAliveTimeoutMs) :=
        adds_trans (reset_silent c₂)
          ⟨[.rearm .epollin, .addTimer c₂.reset.r.keepAliveTimeoutMs], List.append_assoc _ _ _,
            by simp [Call.isSilent]⟩
      exact .sent c₂ hs hmem (fun hp => mem_adds hsil (hfile hp)) hsil
        (hopen₂.trans (hka.symm.trans hkeep)) rfl

/-! ### `do_request` -/

theorem lookup_silent {look : List Call} (h : Lookup look) : ∀ x ∈ look, x.isSilent = true := by
  cases h with
  | direct => exact fun _ hx => absurd hx List.not_mem_nil
  | stat file => simp [Call.isSilent]
  | start file calls hf => cases hf <;> simp [Call.isSilent]

theorem prologue_silent {c c₁ : Conn} {look : List Call} {file : Option (Bytes × Fd)}
    (h : Prologue c c₁ look file) : ∀ x ∈ look ++ closeFd c.r.out.outFileFd ++
      (file.map fun f => Call.openFile f.1 f.2).toList, x.isSilent = true := by
  intro x hx
  simp only [List.mem_append] at hx
  rcases hx with (hx | hx) | hx
  · exact lookup_silent h.lookup x hx
  · exact closeFd_silent _ x hx
  · cases file with
    | none => exact absurd hx List.not_mem_nil
    | some f =>
      obtain rfl := List.mem_singleton.mp hx
      rfl

/-- Nothing of the response is out when it is prepared. -/
theorem prologue_response {c c₁ : Conn} {look : List Call} {file : Option (Bytes × Fd)}
    (h : Prologue c c₁ look file) : response c₁ = [] ∧ accepted c₁.tr = accepted c.tr := by
  have hsil := prologue_silent h
  have htr : c₁.tr = c.tr ++ .serve c.r.inp.served c.r.inp.method ::
      (look ++ closeFd c.r.out.outFileFd ++
        (file.map fun f => Call.openFile f.1 f.2).toList) := by
    rw [h.frame]
    simp
  refine ⟨?_, ?_⟩
  · unfold response
    rw [htr, sinceServe_serve (silent_not_serve hsil), accepted_silent hsil]
  · rw [htr, accepted_append]
    show accepted c.tr ++ accepted (look ++ _ ++ _) = _
    rw [accepted_silent hsil, List.append_nil]

/-- A pass that answers a request has sent nothing, or leaves the connection settled. -/
theorem answered_ended {lib : Libc} {e : PassEnv} {c : Conn} {x : Conn × PassExit} (h : AtLoop c)
    (ha : Answered lib e c x) :
    (accepted x.1.tr = accepted c.tr ∨ Settled lib x.1) ∧ Owing lib x.1 := by
  cases ha with
  | refused c₁ look hp =>
    obtain ⟨calls, htr, hsil⟩ := closeLabel_silent e.reaped c₁
    refine ⟨.inl ?_, fun hopen => by cases hopen⟩
    rw [htr, accepted_append, accepted_silent hsil, List.append_nil]
    exact (prologue_response hp).2
  | reply c₁ look file last hp hcomp hlast hlook =>
    have hend := deliver_delivered (e := e) hcomp.prepared (prologue_response hp).1
      (prologue_inside hp h.toInside) hlast
    exact ⟨.inr (hend.settled hcomp), hend.owing hcomp⟩
  | started i file envp pid inR inW outR outW hi hm hu =>
    refine ⟨.inl ?_, fun _ _ hact => by cases hact⟩
    show accepted (c.tr ++ _) = _
    rw [accepted_append]
    exact List.append_nil _

theorem fed_silent {c c₁ : Conn} (h : Fed c c₁) : Adds Call.isSilent c c₁ := by
  cases h with
  | left hlt => exact adds_refl _ _
  | read bs hle hne hroom =>
    refine ⟨[.recv bs], rfl, fun x hx => ?_⟩
    obtain rfl := List.mem_singleton.mp hx
    rfl

theorem accepted_fed {c c₁ : Conn} (h : Fed c c₁) : accepted c₁.tr = accepted c.tr := by
  cases h with
  | left hlt => rfl
  | read bs hle hne hroom =>
    rw [accepted_append]
    exact List.append_nil _

theorem requestPass_ended {lib : Libc} {e : PassEnv} {c : Conn} (h : AtLoop c) :
    (accepted (requestPass lib e c).1.tr = accepted c.tr ∨ Settled lib (requestPass lib e c).1) ∧
      Owing lib (requestPass lib e c).1 := by
  have hclosed : ∀ c₁ : Conn, accepted c₁.tr = accepted c.tr →
      (accepted (c₁.closeLabel e.reaped).tr = accepted c.tr ∨ Settled lib (c₁.closeLabel e.reaped)) ∧
        Owing lib (c₁.closeLabel e.reaped) := by
    intro c₁ heq
    obtain ⟨calls, htr, hsil⟩ := closeLabel_silent e.reaped c₁
    refine ⟨.inl ?_, fun hopen => by cases hopen⟩
    rw [htr, accepted_append, accepted_silent hsil, List.append_nil, heq]
  have hp := requestPass_cases lib e c
  generalize requestPass lib e c = x at hp ⊢
  cases hp with
  | idle hle => exact ⟨.inl rfl, fun _ hw => by cases hw.symm.trans h.out.writing⟩
  | dropped hle => exact hclosed c rfl
  | more c₁ i hf hpar =>
    have heq := accepted_fed hf
    exact ⟨.inl heq, fun _ hw => by cases hw.symm.trans (fed_loop h hf).out.writing⟩
  | refused c₁ hf hs =>
    have heq := accepted_fed hf
    exact ⟨.inl heq, fun _ hw => by cases hw.symm.trans (fed_loop h hf).out.writing⟩
  | bad c₁ i rc hf hpar hrc =>
    have heq := accepted_fed hf
    exact hclosed { c₁ with r := { c₁.r with inp := i } } heq
  | answered c₁ i _ hf hpar hx =>
    have hloop := parsed_loop (fed_loop h hf) hpar (.inr rfl)
    have heq := accepted_fed hf
    rw [hx]
    obtain ⟨hsent, howing⟩ := answered_ended hloop (answer_cases lib e _)
    exact ⟨hsent.imp_left fun hsame => hsame.trans heq, howing⟩

theorem passes_loop {lib : Libc} {c c₁ : Conn} {es : List PassEnv} (h : AtLoop c)
    (hp : passes lib c es = some c₁) : AtLoop c₁ := by
  induction es generalizing c with
  | nil =>
    obtain rfl := Option.some.inj hp
    exact h
  | cons e es ih =>
    have hok := requestPass_ok lib e h
    unfold passes at hp
    split at hp
    · next c₂ heq =>
      rw [heq] at hok
      exact ih (hok.next rfl) hp
    · cases hp

/-- `do_request` begins at the head of its loop. -/
theorem phase_loop {c : Conn} (h : Phase c) (hf : c.sock = .fired .epollin) :
    AtLoop { c with sock := .off }.delTimer := by
  cases h with
  | reading hopen hsock hpipe hout hcgi hwin => exact ⟨⟨hopen, rfl, hpipe, hcgi, hwin⟩, hout⟩
  | writing hopen hsock | cgiWriting hopen hsock => cases fired_waits hf hsock
  | cgiReading hopen hsock | closed hopen hsock => cases hf.symm.trans hsock

/-! ### The record only grows -/

theorem adds_tr {P : Call → Bool} {c c' : Conn} (h : Adds P c c') : c.tr <+: c'.tr := by
  obtain ⟨calls, htr, -⟩ := h
  exact ⟨calls, htr.symm⟩

theorem prologue_tr {c c₁ : Conn} {look : List Call} {file : Option (Bytes × Fd)}
    (h : Prologue c c₁ look file) : c.tr <+: c₁.tr := by
  rw [h.frame]
  dsimp only
  rw [List.append_assoc, List.append_assoc]
  exact List.prefix_append _ _

theorem requestPass_tr {lib : Libc} {e : PassEnv} {c : Conn} (h : AtLoop c) :
    c.tr <+: (requestPass lib e c).1.tr := by
  have hp := requestPass_cases lib e c
  generalize requestPass lib e c = x at hp ⊢
  cases hp with
  | idle hle => exact List.prefix_refl _
  | dropped hle => exact adds_tr (closeLabel_silent e.reaped c)
  | more c₁ i hf hpar =>
    have hfed := adds_tr (fed_silent hf)
    exact hfed
  | refused c₁ hf hs =>
    have hfed := adds_tr (fed_silent hf)
    exact hfed
  | bad c₁ i rc hf hpar hrc =>
    have hfed := adds_tr (fed_silent hf)
    exact hfed.trans (adds_tr (closeLabel_silent e.reaped { c₁ with r := { c₁.r with inp := i } }))
  | answered c₁ i _ hf hpar hx =>
    have hfed := adds_tr (fed_silent hf)
    have hloop := parsed_loop (fed_loop h hf) hpar (.inr rfl)
    have hans := answer_cases lib e { c₁ with r := { c₁.r with inp := i } }
    rw [← hx] at hans
    refine hfed.trans ?_
    cases hans with
    | refused c₂ look hp => exact (prologue_tr hp).trans (adds_tr (closeLabel_silent e.reaped c₂))
    | reply c₂ look file last hp hcomp hlast hlook =>
      have hact := noScript_active (prologue_inside hp hloop.toInside).cgi
      exact (prologue_tr hp).trans (adds_tr (deliver_plain hact e last _))
    | started i file envp pid inR inW outR outW hi hm hu => exact List.prefix_append _ _

theorem requestLoop_tr {lib : Libc} {es : List PassEnv} {c : Conn} (h : AtLoop c) :
    c.tr <+: (requestLoop lib c es).1.tr := by
  induction es generalizing c with
  | nil => exact List.prefix_refl _
  | cons e es ih =>
    have htr := @requestPass_tr lib e c h
    have hok := requestPass_ok lib e h
    unfold requestLoop
    generalize requestPass lib e c = x at htr hok ⊢
    obtain ⟨c₁, x⟩ := x
    cases x with
    | next => exact htr.trans (ih (hok.next rfl))
    | idle => exact htr.trans ⟨_, (List.append_assoc _ [_] [_]).symm⟩
    | returned => exact htr
    | closed => exact htr
    | inCall => exact htr

theorem doWrite_tr (e : WriteEnv) (c : Conn) : c.tr <+: (doWrite e c).1.tr := by
  have hdel : c.tr <+: c.delTimer.tr := List.prefix_append _ _
  unfold doWrite
  dsimp only
  split
  · have hstep := cgiStep_tr c.delTimer (.clientWritable e.cgi e.reapedWrite)
    change c.delTimer.tr <+: (zvCgiOnClientWritable e.cgi e.reapedWrite c.delTimer).1.tr at hstep
    refine hdel.trans (hstep.trans ?_)
    unfold writeCgi
    generalize zvCgiOnClientWritable e.cgi e.reapedWrite c.delTimer = res
    obtain ⟨c₁, x⟩ := res
    cases x with
    | wouldBlock => exact adds_tr (waitOutput_silent c₁)
    | needMore => exact List.prefix_append _ _
    | inCall => exact List.prefix_refl _
    | finished => exact adds_tr (closeConn_silent e.reapedFree c₁)
    | error => exact adds_tr (closeConn_silent e.reapedFree c₁)
  · next hact =>
    exact hdel.trans (adds_tr (writeStatic_plain (Bool.eq_false_of_not_eq_true hact)))

theorem connStep_tr {lib : Libc} {c c' : Conn} {a : ConnAct} (h : Phase c)
    (hstep : connStep lib c a = some c') : c.tr <+: c'.tr := by
  cases connStep_cases hstep with
  | takeSocket g hg => exact List.prefix_refl _
  | takePipe g hg => exact List.prefix_refl _
  | request es _ hf hd =>
    have hgrow := @requestLoop_tr lib es _ (phase_loop h hf)
    have heq : requestLoop lib { c with sock := .off }.delTimer es = (c', true) := hd
    rw [heq] at hgrow
    exact (List.prefix_append c.tr [.delTimer]).trans hgrow
  | write e _ hf hd =>
    have hgrow := doWrite_tr e { c with sock := .off }
    rw [hd] at hgrow
    exact hgrow
  | stdout answers reaped _ hf hd =>
    have hgrow := cgiStep_tr { c with pipe := .off } (.stdoutReady answers reaped)
    change c.tr <+: (zvCgiOnStdoutReady answers reaped { c with pipe := .off }).1.tr at hgrow
    rw [hd] at hgrow
    exact hgrow
  | hangup ev reaped hf =>
    exact (List.prefix_append c.tr [.delTimer]).trans (adds_tr (closeConn_silent reaped c.delTimer))
  | expire reaped hopen => exact adds_tr (closeConn_silent reaped c)

/-! ### The callbacks of a script -/

/-- The header of a script's response is a block of its own lines. -/
theorem cgiHeaderText_block (status : Nat) {contentType : Bytes} (hct : LF ∉ contentType) :
    ∃ ls type, LF ∉ type ∧
      ls = [ascii "HTTP/1.1 " ++ numeral 10 status ++ ascii " " ++ cgiReason status,
        ascii "Server: Zaver", ascii "Connection: " ++ ascii "close",
        ascii "Content-Type: " ++ type, ascii "Transfer-Encoding: " ++ ascii "chunked"] ∧
      cgiHeaderText status contentType = block ls := by
  refine ⟨_, if contentType = [] then ascii "text/plain" else contentType, ?_, rfl, ?_⟩
  · split
    · decide
    · exact hct
  · have h1 : ascii "\r\nServer: Zaver\r\nConnection: close\r\nContent-Type: " =
        CRLF ++ ascii "Server: Zaver" ++ CRLF ++ (ascii "Connection: " ++ ascii "close") ++ CRLF ++
          ascii "Content-Type: " := by decide
    have h2 : ascii "\r\nTransfer-Encoding: chunked\r\n\r\n" =
        CRLF ++ (ascii "Transfer-Encoding: " ++ ascii "chunked") ++ CRLF ++ CRLF := by decide
    unfold cgiHeaderText
    dsimp only
    rw [h1, h2]
    simp [block]

theorem cgiReason_plain (status : Nat) : PlainLine (cgiReason status) := by
  unfold cgiReason getShortmsgFromStatusCode
  dsimp only
  split_ifs <;> decide

/-- A reader cuts it off, and it says `close` and `chunked`. -/
theorem cgiHeader_read (status : Nat) {contentType : Bytes} (hct : LF ∉ contentType) :
    (∀ rest, cutHeader (cgiHeaderText status contentType ++ rest) =
        some (cgiHeaderText status contentType, rest)) ∧
      saysChunked (cgiHeaderText status contentType) = true ∧
      connectionField (cgiHeaderText status contentType) = some (ascii "close") := by
  obtain ⟨ls, type, htype, rfl, hblock⟩ := cgiHeaderText_block status hct
  have hstatus := statusLine_plain (numeral_plain status) (cgiReason_plain status)
  have hline : LF ∉ ascii "Content-Type: " ++ type := by
    rw [List.mem_append]
    rintro (hx | hx)
    · exact absurd hx (by decide)
    · exact htype hx
  rw [hblock]
  refine ⟨fun rest => cutHeader_block ?_ (List.cons_ne_nil _ _) rest, ?_, ?_⟩
  · intro l hl
    simp only [List.mem_cons, List.not_mem_nil, or_false] at hl
    rcases hl with rfl | rfl | rfl | rfl | rfl
    · exact ⟨hstatus.ne, hstatus.lf⟩
    · decide
    · decide
    · refine ⟨fun hx => ?_, hline⟩
      exact absurd (List.append_eq_nil_iff.mp hx).1 (by decide)
    · decide
  · unfold saysChunked
    rw [block_cons, field_statusLine (by decide) (by decide) (numeral_plain _) (cgiReason_plain _),
      block_cons, field_skip (by decide) (by decide) (by decide), block_cons,
      field_skip (by decide) (by decide) (by decide), block_cons,
      field_skip (by decide) hline (other_name 1 (by decide) _), block_cons,
      field_here (by decide) (by decide) (by decide)]
    decide
  · unfold connectionField
    rw [block_cons, field_statusLine (by decide) (by decide) (numeral_plain _) (cgiReason_plain _),
      block_cons, field_skip (by decide) (by decide) (by decide), block_cons]
    exact field_here (by decide) (by decide) (by decide) _

/-- A whole response of a script: its header says `close`, and nothing is owed. -/
theorem script_whole {c : CgiState} {sent header payload : Bytes} {ps : List Bytes}
    (h : Relay c sent ps) (ht : BuiltLine c) (hd : c.headersDone = true)
    (hcut : cutHeader sent = some (header, payload)) :
    connectionField header = some (ascii "close") ∧ (WholeBody header payload → owed c = []) := by
  obtain ⟨status, contentType, hct, htext⟩ := ht hd
  obtain ⟨hhead, hchunked, hclose⟩ := cgiHeader_read status hct
  have hext := cutHeader_extend hcut (owed c)
  rw [h.total, htext, hhead] at hext
  obtain ⟨hh, hp⟩ := Prod.mk.inj (Option.some.inj hext)
  rw [← hh]
  refine ⟨hclose, fun hw => ?_⟩
  rw [WholeBody, hchunked, if_pos rfl] at hw
  by_contra hne
  have hnone := dechunk_append hw hne
  have hsome := dechunk_encode ps h.nonempty
  rw [encode, hp, hnone] at hsome
  cases hsome

/-- `do_write` for a script: what was sent is whole only when the connection is closed. -/
theorem writeCgi_whole {e : WriteEnv} {c : Conn} (hs : Script c)
    (hd : c.r.cgi.headersDone = true) {header payload : Bytes}
    (hcut : cutHeader (response (writeCgi e c).1) = some (header, payload))
    (hw : WholeBody header payload) :
    connectionField header = some (ascii "close") ∧ (writeCgi e c).1.isOpen = false := by
  have hspec := writerLoop_spec hs.relay.writer e.cgi
  have hrelay := writerLoop_relay hs.relay e.cgi
  have htext := writerLoop_text hs.relay.writer hs.text e.cgi
  have hunf := @writerLoop_unfinished _ hs.relay.writer e.cgi
  obtain ⟨_, _, _, _, _, _, _, _, _, hfr⟩ := hspec.frame
  have hdone : (writerLoop c.r.cgi e.cgi).1.headersDone = true := by
    rw [hfr]
    exact hd
  have hwrites := hspec.onlyWrites
  unfold writeCgi zvCgiOnClientWritable at hcut ⊢
  rw [if_neg (by rw [hs.active]; exact fun hx => by cases hx)] at hcut ⊢
  dsimp only at hcut ⊢
  generalize writerLoop c.r.cgi e.cgi = res at *
  obtain ⟨cgi, calls, x⟩ := res
  dsimp only at hcut hrelay htext hunf hdone hwrites ⊢
  generalize hc₁ : ({ c.emit calls with r := { c.r with cgi := cgi } } : Conn) = c₁ at hcut ⊢
  have hresp : response c₁ = response c ++ accepted calls := by
    rw [← hc₁]
    show accepted (sinceServe (c.tr ++ calls)) = _
    rw [sinceServe_append (writev_not_serve hwrites), accepted_append]
    rfl
  -- Whatever the writer returned, no more bytes go out behind it.
  have hall : ∀ {c' : Conn}, Adds Call.isSilent c₁ c' →
      cutHeader (response c') = some (header, payload) →
      connectionField header = some (ascii "close") ∧ x = .finished := by
    intro c' hsil hcut'
    rw [response_silent hsil, hresp] at hcut'
    obtain ⟨hclose, hnil⟩ := script_whole hrelay htext hdone hcut'
    exact ⟨hclose, by_contra fun hne => hunf hne (hnil hw)⟩
  cases x with
  | finished =>
    dsimp only at hcut ⊢
    refine ⟨(hall (adds_trans ?_ (closeConn_silent _ _)) hcut).1, rfl⟩
    refine ⟨_, rfl, fun y hy => ?_⟩
    split at hy
    · obtain rfl := List.mem_singleton.mp hy
      rfl
    · exact absurd hy List.not_mem_nil
  | wouldBlock => cases (hall (waitOutput_silent c₁) hcut).2
  | needMore =>
    dsimp only at hcut
    split at hcut
    · have hsil : Adds Call.isSilent c₁ (c₁.watchPipe.addTimer c₁.watchPipe.r.requestTimeoutMs) :=
        ⟨[.watchPipe, .addTimer c₁.r.requestTimeoutMs], List.append_assoc _ _ _,
          by simp [Call.isSilent]⟩
      cases (hall hsil hcut).2
    · have hsil : Adds Call.isSilent c₁ (c₁.addTimer c₁.r.requestTimeoutMs) :=
        ⟨[.addTimer c₁.r.requestTimeoutMs], rfl, by simp [Call.isSilent]⟩
      cases (hall hsil hcut).2
  | inCall => cases (hall (adds_refl _ _) hcut).2
  | error => cases (hall (closeConn_silent _ _) hcut).2

/-- The callbacks of a script that runs leave it running, or close the connection. -/
theorem writeCgi_active {e : WriteEnv} {c : Conn} (hs : Script c)
    (hopen : (writeCgi e c).1.isOpen = true) : (writeCgi e c).1.r.cgi.active = true := by
  obtain ⟨_, _, _, _, _, _, _, _, _, hfr⟩ := (writerLoop_spec hs.relay.writer e.cgi).frame
  have hact : (writerLoop c.r.cgi e.cgi).1.active = true := by
    rw [hfr]
    exact hs.active
  unfold writeCgi zvCgiOnClientWritable at hopen ⊢
  rw [if_neg (by rw [hs.active]; exact fun hx => by cases hx)] at hopen ⊢
  dsimp only at hopen ⊢
  generalize writerLoop c.r.cgi e.cgi = res at *
  obtain ⟨cgi, calls, x⟩ := res
  cases x with
  | finished => cases hopen
  | error => cases hopen
  | wouldBlock => exact hact
  | inCall => exact hact
  | needMore =>
    dsimp only
    split
    · exact hact
    · exact hact

theorem stdoutReady_active {answers : List (Ans Bytes)} {reaped : Bool} {c : Conn} (hs : Script c)
    (hfd : c.r.cgi.outFd ≠ none) (hopen : (zvCgiOnStdoutReady answers reaped c).1.isOpen = true) :
    (zvCgiOnStdoutReady answers reaped c).1.r.cgi.active = true := by
  have hspec := readerLoop_spec hs.relay hfd answers
  have hsame : c.delTimer.r.cgi = c.r.cgi := rfl
  unfold zvCgiOnStdoutReady at hopen ⊢
  rw [if_neg (by rw [hs.active]; simp [hfd])] at hopen ⊢
  dsimp only at hopen ⊢
  rw [hsame] at hopen ⊢
  generalize readerLoop c.r.cgi answers = res at *
  obtain ⟨cgi, calls, x⟩ := res
  have hact : cgi.active = true := hspec.active.trans hs.active
  dsimp only at hopen ⊢
  generalize hc₁ : (if cgi.outFd = none then _ else _ : Conn) = c₁ at hopen ⊢
  have hcgi₁ : c₁.r.cgi = cgi := by
    rw [← hc₁]
    split <;> rfl
  cases x with
  | armClient => exact hcgi₁ ▸ hact
  | rearmPipe =>
    dsimp only
    split
    · exact hcgi₁ ▸ hact
    · exact hcgi₁ ▸ hact
  | closeConn => cases hopen
  | inCall => exact hcgi₁ ▸ hact

/-! ### Steps -/

theorem owing_write {lib : Libc} {c : Conn} (h : Phase c) (ho : Owing lib c)
    (hf : c.sock = .fired .epollout) {e : WriteEnv} {c' : Conn} {b : Bool}
    (hw : doWrite e { c with sock := .off } = (c', b)) : Owing lib c' := by
  unfold doWrite at hw
  cases h with
  | reading hopen hsock => cases fired_waits hf hsock
  | writing hopen hsock hpipe hout hcgi hwin =>
    have hidle := noScript_active hcgi
    have hact : ¬ c.r.cgi.active = true := by
      rw [hidle]
      exact fun hx => by cases hx
    obtain ⟨o₀, hcomp, hs⟩ := ho hopen hout hidle
    have hresp : response { c with sock := .off }.delTimer = response c :=
      response_silent ⟨[.delTimer], rfl, by simp [Call.isSilent]⟩
    have hend := writeStatic_delivered (e := e) (c := { c with sock := .off }.delTimer)
      (hresp.symm ▸ hs) hopen
    have hw' : writeStatic e { c with sock := .off }.delTimer = (c', b) := (if_neg hact).symm.trans hw
    rw [hw'] at hend
    exact hend.owing hcomp
  | cgiReading hopen hsock => cases hf.symm.trans hsock
  | cgiWriting hopen hsock hpipe hs hbuilt hfd =>
    have hs' : Script { c with sock := .off }.delTimer :=
      script_quiet [.delTimer] hs ⟨rfl, rfl, rfl⟩ (by simp [Call.isServe]) rfl rfl
    have hw' : writeCgi e { c with sock := .off }.delTimer = (c', b) :=
      (if_pos hs.active).symm.trans hw
    have hact := @writeCgi_active e _ hs'
    rw [hw'] at hact
    exact fun hopen' _ hidle => by cases hidle.symm.trans (hact hopen')
  | closed hopen hsock => cases hf.symm.trans hsock

theorem connStep_owing {lib : Libc} {c c' : Conn} {a : ConnAct} (h : Phase c) (ho : Owing lib c)
    (hstep : connStep lib c a = some c') : Owing lib c' := by
  cases connStep_cases hstep with
  | takeSocket g hg => exact ho
  | takePipe g hg => exact ho
  | request es _ hf hd =>
    have hnext : ∀ e c₁ c₂, AtLoop c₁ → ¬ Stuck c₂.r.inp →
        requestPass lib e c₁ = (c₂, .next) → AtLoop c₂ := by
      intro e c₁ c₂ h₁ _ heq
      have hok := requestPass_ok lib e h₁
      rw [heq] at hok
      exact hok.next rfl
    obtain ⟨c₁, e, c₂, x, h₁, hpass, hend⟩ := requestLoop_cases hnext (phase_loop h hf) hd
    have hok := requestPass_ok lib e h₁
    have howing := (@requestPass_ended lib e c₁ h₁).2
    rw [hpass] at hok howing
    rcases hend with ⟨rfl, ms, rfl⟩ | ⟨hx, rfl⟩
    · have hclean := (hok.idle rfl).1.out.writing
      exact fun _ hw => by cases hw.symm.trans hclean
    · exact howing
  | write e _ hf hd => exact owing_write h ho hf hd
  | stdout answers reaped _ hf hd =>
    cases h with
    | cgiReading hopen hsock hpipe hs hfd hu =>
      have hact := @stdoutReady_active answers reaped { c with pipe := .off }
        ⟨hs.active, hs.relay, hs.text⟩ hfd
      rw [hd] at hact
      exact fun hopen' _ hidle => by cases hidle.symm.trans (hact hopen')
    | reading hopen hsock hpipe | writing hopen hsock hpipe | cgiWriting hopen hsock hpipe
    | closed hopen hsock hpipe => cases hf.symm.trans hpipe
  | hangup ev reaped hf => exact fun hopen => by cases hopen
  | expire reaped hopen => exact fun hopen => by cases hopen

end PersistenceLemmas

open PersistenceLemmas

/-- In every state that a connection reaches, a response that waits was prepared. -/
theorem reached_owing {lib : Libc} {c : Conn} (h : Reached lib c) : Owing lib c := by
  obtain ⟨old, fd, cf, acts, hrun⟩ := h
  have hinv : Phase c ∧ Owing lib c :=
    run_invariant (P := fun c => Phase c ∧ Owing lib c)
      (fun _ _ _ h hstep => ⟨ConnectionLemmas.connStep_phase h.1 hstep,
        connStep_owing h.1 h.2 hstep⟩)
      ⟨phase_accept old fd cf, fun _ hw => by cases hw⟩ hrun
  exact hinv.2

/-! ## The header tells what happens -/

/-- For every call in which the server writes to a client, from every state that a connection
reaches and whatever the kernel and the files answer: if bytes went out in it, and with them
the client has a whole response to the last request, then the connection is closed exactly
when the header of that response says `close`, and open exactly when it says `keep-alive`. -/
theorem persistence_as_advertised {lib : Libc} {c c' : Conn} (h : Turn lib c c')
    (hsent : accepted c'.tr ≠ accepted c.tr) {header payload : Bytes}
    (hcut : cutHeader (response c') = some (header, payload))
    (hwhole : WholeBody header payload) :
    (connectionField header = some (ascii "close") ↔ c'.isOpen = false) ∧
      (connectionField header = some (ascii "keep-alive") ↔ c'.isOpen = true) := by
  have hclosed : connectionField header = some (ascii "close") → c'.isOpen = false →
      (connectionField header = some (ascii "close") ↔ c'.isOpen = false) ∧
        (connectionField header = some (ascii "keep-alive") ↔ c'.isOpen = true) := by
    intro hf ho
    rw [hf, ho]
    decide
  have hsettled : Settled lib c' →
      (connectionField header = some (ascii "close") ↔ c'.isOpen = false) ∧
        (connectionField header = some (ascii "keep-alive") ↔ c'.isOpen = true) := by
    rintro ⟨o₀, o, hcomp, hs, hend⟩
    obtain ⟨rfl, hfull⟩ := sending_cut hcomp hs hcut
    have hkeep := hend.resolve_left (hfull hwhole)
    rw [hcomp.prepared.read.2, hkeep]
    cases o₀.keepAlive with
    | false => decide
    | true => decide
  cases h with
  | pass c₀ _ _ es e x hr hf hp hpass =>
    have hloop := passes_loop (phase_loop (reached_phase hr) hf) hp
    obtain ⟨hset, -⟩ := @requestPass_ended lib e c hloop
    rw [hpass] at hset
    exact hsettled (hset.resolve_left hsent)
  | write _ _ e b hr hf hw =>
    have howing := reached_owing hr
    have hph := reached_phase hr
    unfold doWrite at hw
    cases hph with
    | reading hopen hsock => cases ConnectionLemmas.fired_waits hf hsock
    | writing hopen hsock hpipe hout hcgi hwin =>
      have hidle := ConnectionLemmas.noScript_active hcgi
      obtain ⟨o₀, hcomp, hs⟩ := howing hopen hout hidle
      have hresp : response { c with sock := .off }.delTimer = response c :=
        response_silent ⟨[.delTimer], rfl, by simp [Call.isSilent]⟩
      have hend := writeStatic_delivered (e := e) (c := { c with sock := .off }.delTimer)
        (hresp.symm ▸ hs) hopen
      have hact : ¬ c.r.cgi.active = true := fun hx => by cases hx.symm.trans hidle
      have hw' : writeStatic e { c with sock := .off }.delTimer = (c', b) :=
        (if_neg hact).symm.trans hw
      rw [hw'] at hend
      exact hsettled (hend.settled hcomp)
    | cgiReading hopen hsock => cases hf.symm.trans hsock
    | cgiWriting hopen hsock hpipe hs hbuilt hfd =>
      have hs' : Script { c with sock := .off }.delTimer :=
        ConnectionLemmas.script_quiet [.delTimer] hs ⟨rfl, rfl, rfl⟩ (by simp [Call.isServe]) rfl rfl
      have hw' : writeCgi e { c with sock := .off }.delTimer = (c', b) :=
        (if_pos hs.active).symm.trans hw
      have hall := @writeCgi_whole e _ hs' hbuilt header payload
      rw [hw'] at hall
      obtain ⟨hfield, hoff⟩ := hall hcut hwhole
      exact hclosed hfield hoff
    | closed hopen hsock => cases hf.symm.trans hsock

/-- A pass that reads a request for a file that is not there, and sends the whole answer. -/
def missingPass : PassEnv :=
  { read := .ok (ascii "GET /a HTTP/1.1\r\n\r\n"), malloc := true, stat := none, realpath := some
    openAns := none, send := ⟨[.ok 10000], []⟩, start := ⟨none, none, none, true⟩, outMtime := 0
    tmIsdst := fun _ => 0, reaped := false }

/-- The connection on which it comes in. -/
def missingConn : Conn :=
  { acceptConn Request.zero 7 ⟨some (ascii "/srv"), 0, 0⟩ with sock := .fired .epollin }

theorem persistence_as_advertised_missing : ∃ c c' header payload, Turn sampleLib c c' ∧
    cutHeader (response c') = some (header, payload) ∧
    (connectionField header = some (ascii "close") ↔ c'.isOpen = false) ∧
    (connectionField header = some (ascii "keep-alive") ↔ c'.isOpen = true) := by
  obtain ⟨c, hc⟩ : ∃ c, c = { missingConn with sock := .off }.delTimer := ⟨_, rfl⟩
  obtain ⟨c', hc'⟩ : ∃ c', c' = (requestPass sampleLib missingPass c).1 := ⟨_, rfl⟩
  have hr : Reached sampleLib missingConn := ⟨Request.zero, 7, _, [.takeSocket], rfl⟩
  have hturn : Turn sampleLib c c' := by
    refine .pass missingConn c c' [] missingPass _ hr rfl ?_ (Prod.ext hc'.symm rfl)
    rw [hc]
    rfl
  have hsent : accepted c'.tr ≠ accepted c.tr := by
    rw [hc', hc]
    decide +kernel
  have hwhole : (cutHeader (response c')).map
      (fun cut => decide (saysChunked cut.1 = false ∧ cut.2.length = announced cut.1)) = some true := by
    rw [hc', hc]
    decide +kernel
  obtain ⟨⟨header, payload⟩, hcut, hbody⟩ := Option.map_eq_some_iff.mp hwhole
  obtain ⟨hplain, hlen⟩ := of_decide_eq_true hbody
  have hw : WholeBody header payload := by
    rw [WholeBody, hplain]
    exact hlen
  exact ⟨c, c', header, payload, hturn, hcut, persistence_as_advertised hturn hsent hcut hw⟩

end Zaver
