import Zaver.CgiEnvironment
import Zaver.RequestStream

/-!
# What a block remembers of earlier requests

Each request on a connection is read into the block of the one before. The token, the URI, the
version and the headers are those of a fresh block; `r->method` is not written for an unknown
token of three or four letters, and keeps what an earlier request left there
(`served_as_fresh_iff`). Such a request reaches `zv_cgi_start` behind a `GET`
(`served_as_fresh_put`).
-/

namespace Zaver

open Runs WholeRequestLemmas ConnectionLemmas AnswerLemmas CallbacksLemmas ReceiveBufferLemmas
open RequestStreamLemmas

/-- The method of the request in front of the one with number `k`. -/
def methodBefore (serves : List (Served × Method)) : Nat → Method
  | 0 => .unknown
  | k + 1 => (serves[k]?.map Prod.snd).getD .unknown

/-- `zv_cgi_start` made a call for the request with number `k`. -/
def StartedFor (k : Nat) (tr : List Call) : Prop :=
  ∃ front call back, tr = front ++ call :: back ∧ call.isStart = true ∧
    (servesOf front).length = k + 1

/-- `zv_cgi_start` made its calls for requests whose method was `GET`. -/
def StartsGet (tr : List Call) : Prop :=
  ∀ front call back, tr = front ++ call :: back → call.isStart = true →
    ∃ q, (servesOf front).getLast? = some (q, .get)

namespace RequestMemoryLemmas

/-! ### Scripts and requests -/

theorem start_not_aside {x : Call} (hx : x.isStart = true) (h : x.isAside = true) : False := by
  unfold Call.isAside at h
  rw [hx] at h
  cases (Bool.and_eq_true_iff.mp h).2

theorem startsGet_aside {c c' : Conn} (h : StartsGet c.tr) (hs : Adds Call.isAside c c') :
    StartsGet c'.tr := by
  obtain ⟨calls, htr, hall⟩ := hs
  intro front call back heq hcall
  rw [htr] at heq
  rcases List.append_eq_append_iff.mp heq with ⟨mid, hfront, hcalls⟩ | ⟨mid, hold, hback⟩
  · -- it is none of the new calls
    have hmem : call ∈ calls := by
      rw [hcalls]
      exact List.mem_append_right _ List.mem_cons_self
    exact (start_not_aside hcall (hall _ hmem)).elim
  · cases mid with
    | nil =>
      have hmem : call ∈ calls := by
        rw [← List.nil_append calls, ← hback]
        exact List.mem_cons_self
      exact (start_not_aside hcall (hall _ hmem)).elim
    | cons x mid =>
      obtain ⟨rfl, -⟩ := List.cons.inj hback
      exact h front call mid hold hcall

theorem startsGet_recv {tr : List Call} (h : StartsGet tr) (bs : Bytes) :
    StartsGet (tr ++ [.recv bs]) := by
  intro front call back heq hcall
  rcases List.eq_nil_or_concat back with rfl | ⟨mid, last, rfl⟩
  · obtain ⟨-, hlast⟩ := List.append_inj' heq rfl
    obtain rfl : Call.recv bs = call := (List.cons.inj hlast).1
    cases hcall
  · rw [List.concat_eq_append, ← List.cons_append, ← List.append_assoc] at heq
    exact h front call mid (List.append_inj' heq rfl).1 hcall

/-- A request is handed on, and `zv_cgi_start` is reached for it if its method is `GET`. -/
theorem startsGet_serve {tr calls : List Call} {q : Served} {m : Method} (h : StartsGet tr)
    (hstill : ∀ x ∈ calls, x.isStill = true) (hget : ∀ x ∈ calls, x.isStart = true → m = .get) :
    StartsGet (tr ++ .serve q m :: calls) := by
  intro front call back heq hcall
  rcases List.append_eq_append_iff.mp heq with ⟨mid, rfl, hcalls⟩ | ⟨mid, hold, hback⟩
  · -- It is a call for the new request, which is the last one served in front of it.
    cases mid with
    | nil =>
      obtain rfl : Call.serve q m = call := (List.cons.inj hcalls).1
      cases hcall
    | cons x mid =>
      obtain ⟨rfl, rfl⟩ := List.cons.inj hcalls
      obtain rfl := hget call (List.mem_append_right _ List.mem_cons_self) hcall
      have hnone : servesOf mid = [] :=
        (records_still fun x hx => hstill x (List.mem_append_left _ hx)).1
      refine ⟨q, ?_⟩
      have hone : servesOf (.serve q .get :: mid) = (q, .get) :: servesOf mid := rfl
      rw [servesOf_append, hone, hnone, List.getLast?_concat]
  · cases mid with
    | nil =>
      obtain rfl : call = Call.serve q m := (List.cons.inj hback).1
      cases hcall
    | cons x mid =>
      obtain ⟨rfl, -⟩ := List.cons.inj hback
      exact h front call mid hold hcall

/-! ### Other methods -/

variable {c : Conn}

theorem requestDone_aside (e : PassEnv) (keepAlive : Bool) (c : Conn) :
    Adds Call.isAside c (requestDone e keepAlive c).1 := by
  unfold requestDone
  split
  · exact closeLabel_aside e.reaped c
  · dsimp only
    split
    · exact ⟨[.rearm .epollout, .addTimer c.r.requestTimeoutMs], List.append_assoc _ _ _,
        by simp [Call.isAside, Call.isStart, Call.isStill]⟩
    · split
      · exact closeLabel_aside e.reaped { c with r := { c.r with inp := c.r.inp.nextRequest } }
      · exact adds_refl _ _

theorem sendAndFinish_aside (e : PassEnv) (keepAlive : Bool) (c : Conn) :
    Adds Call.isAside c (sendAndFinish e keepAlive c).1 := by
  have hsend := adds_mono plain_aside (trySend_plain e.send c)
  unfold sendAndFinish
  generalize c.trySend e.send = res at hsend ⊢
  obtain ⟨c₁, rc⟩ := res
  refine adds_trans hsend ?_
  cases rc with
  | fail => exact closeLabel_aside e.reaped c₁
  | again => exact requestDone_aside e keepAlive c₁.setWriting
  | done =>
    exact adds_trans (adds_mono plain_aside (reset_plain c₁)) (requestDone_aside e keepAlive c₁.reset)
  | inCall => exact adds_refl _ _

theorem replyPage_aside (e : PassEnv) (page : ErrorPage) (keepAlive : Bool) (c : Conn) :
    Adds Call.isAside c (replyPage e page keepAlive c).1 := by
  have hprep : Adds Call.isAside c (c.prepareError e.malloc page keepAlive).1 := by
    refine ⟨closeFd c.r.out.outFileFd, ?_, fun x hx => plain_aside x (closeFd_plain _ x hx)⟩
    cases e.malloc with
    | false => rfl
    | true => rfl
  unfold replyPage
  generalize c.prepareError e.malloc page keepAlive = res at hprep ⊢
  obtain ⟨c₁, ok⟩ := res
  refine adds_trans hprep ?_
  cases ok with
  | false => exact closeLabel_aside e.reaped c₁
  | true => exact sendAndFinish_aside e keepAlive c₁

theorem replyAndClose_aside (e : PassEnv) (page : ErrorPage) (c : Conn) :
    Adds Call.isAside c (replyAndClose e page c).1 :=
  adds_mono plain_aside (replyAndClose_plain e page c)

theorem replyInvalidUri_aside (e : PassEnv) (c : Conn) :
    Adds Call.isAside c (replyInvalidUri e c).1 := by
  have hreply := replyAndClose_aside e
    ⟨ascii "invalid uri", ascii "400", ascii "Bad Request", ascii "invalid uri"⟩ c
  unfold replyInvalidUri
  generalize replyAndClose e _ c = res at hreply ⊢
  obtain ⟨c₁, rc⟩ := res
  refine adds_trans hreply ?_
  cases rc with
  | returned => exact adds_refl _ _
  | inCall => exact adds_refl _ _
  | close =>
    exact adds_trans (adds_mono plain_aside (reset_plain c₁)) (closeLabel_aside e.reaped c₁.reset)
  | not => exact closeLabel_aside e.reaped c₁
  | error => exact closeLabel_aside e.reaped c₁

theorem prepareStatic_aside (lib : Libc) (openAns : Option Fd) (file : Bytes) (size : UInt64)
    (out : HttpOut) (c : Conn) : Adds Call.isAside c (c.prepareStatic lib openAns file size out).1 := by
  have hfd : ∀ x ∈ closeFd c.r.out.outFileFd, x.isAside = true :=
    fun x hx => plain_aside x (closeFd_plain _ x hx)
  unfold Conn.prepareStatic Zaver.prepareStatic
  dsimp only [resetOutput]
  split
  · exact ⟨_, rfl, hfd⟩
  · cases openAns with
    | none => exact ⟨_, rfl, hfd⟩
    | some fd =>
      refine ⟨_, rfl, fun x hx => ?_⟩
      rcases List.mem_append.mp hx with hx | hx
      · exact hfd x hx
      · rw [List.mem_singleton.mp hx]
        rfl

theorem serveFile_aside (lib : Libc) (e : PassEnv) (file : Bytes) (c : Conn) :
    Adds Call.isAside c (serveFile lib e file c).1 := by
  unfold serveFile
  dsimp only
  generalize zvHttpHandleHeader lib e.tmIsdst c.r.inp _ = out
  have hstat : Adds Call.isAside c
      ({ c with r := { c.r with inp := { c.r.inp with list := [] } } }.emit [.stat file]) :=
    ⟨[.stat file], rfl, by simp [Call.isAside, Call.isStart, Call.isStill]⟩
  generalize ({ c with r := { c.r with inp := { c.r.inp with list := [] } } } : Conn).emit
    [.stat file] = c₁ at hstat ⊢
  refine adds_trans hstat ?_
  split
  · exact replyPage_aside e _ _ c₁
  · next sb _ =>
    split
    · exact replyPage_aside e _ _ c₁
    · split
      · exact replyPage_aside e _ _ c₁
      · have hprep := prepareStatic_aside lib e.openAns file sb.size
          { out with mtime := sb.mtime, status := if out.status = 0 then 200 else out.status } c₁
        generalize c₁.prepareStatic lib e.openAns file sb.size _ = res at hprep ⊢
        obtain ⟨c₂, ok⟩ := res
        refine adds_trans hprep ?_
        cases ok with
        | false => exact closeLabel_aside e.reaped c₂
        | true => exact sendAndFinish_aside e _ c₂

/-- A request of another method does not come to `zv_cgi_start`. -/
theorem answer_aside (lib : Libc) (e : PassEnv) (hm : c.r.inp.method ≠ .get) :
    Adds Call.isAside (c.emit [.serve c.r.inp.served c.r.inp.method]) (answer lib e c).1 := by
  unfold answer
  dsimp only
  generalize hc₀ : c.emit [.serve c.r.inp.served c.r.inp.method] = c₀
  have hm₀ : c₀.r.inp.method ≠ .get := by
    rw [← hc₀]
    exact hm
  have hcgi : Adds Call.isAside c₀ (handleCgiMvp e c₀).1 := by
    unfold handleCgiMvp
    split
    · -- The method is checked before anything else is done for a script.
      exact adds_refl _ _
    · dsimp only
      split
      · exact adds_refl _ _
      · exact replyAndClose_aside e _ c₀
  generalize handleCgiMvp e c₀ = res at hcgi ⊢
  obtain ⟨c₁, rc⟩ := res
  refine adds_trans hcgi ?_
  cases rc with
  | error => exact closeLabel_aside e.reaped c₁
  | returned => exact adds_refl _ _
  | close => exact closeLabel_aside e.reaped c₁
  | inCall => exact adds_refl _ _
  | not =>
    dsimp only
    split
    · exact replyInvalidUri_aside e c₁
    · exact serveFile_aside lib e _ c₁

/-! ### Runs -/

theorem answer_startsGet {lib : Libc} {e : PassEnv} (hact : c.r.cgi.active = false)
    (h : StartsGet c.tr) : StartsGet (answer lib e c).1.tr := by
  obtain ⟨calls, hstill, htr⟩ := answer_record lib e hact
  rw [htr]
  refine startsGet_serve h hstill fun x hmem hstart => ?_
  by_contra hm
  -- Both describe what `answer` adds to the record, so they are the same calls.
  obtain ⟨more, hmore, hall⟩ := answer_aside lib e hm
  have heq : calls = more := by
    rw [htr] at hmore
    have hsplit : c.tr ++ .serve c.r.inp.served c.r.inp.method :: calls =
        c.tr ++ ([.serve c.r.inp.served c.r.inp.method] ++ more) := by
      rw [← List.append_assoc]
      exact hmore
    exact (List.cons.inj (List.append_cancel_left hsplit)).2
  exact start_not_aside hstart (hall x (heq ▸ hmem))

theorem fed_startsGet {c₁ : Conn} (hf : Fed c c₁) (h : StartsGet c.tr) : StartsGet c₁.tr := by
  cases hf with
  | left _ => exact h
  | read bs _ _ _ => exact startsGet_recv h bs

theorem pass_startsGet {lib : Libc} {e : PassEnv} (hact : c.r.cgi.active = false)
    (h : StartsGet c.tr) : StartsGet (requestPass lib e c).1.tr := by
  have hpass := requestPass_cases lib e c
  generalize requestPass lib e c = x at hpass ⊢
  cases hpass with
  | idle _ => exact h
  | dropped _ => exact startsGet_aside h (closeLabel_aside e.reaped c)
  | more c₁ i hf hp =>
    have hfed := fed_startsGet hf h
    exact hfed
  | refused c₁ hf hs =>
    have hfed := fed_startsGet hf h
    exact hfed
  | bad c₁ i rc hf hp hrc =>
    have hfed := fed_startsGet hf h
    exact startsGet_aside (c := { c₁ with r := { c₁.r with inp := i } }) hfed
      (closeLabel_aside e.reaped _)
  | answered c₁ i x hf hp hx =>
    have hfed := fed_startsGet hf h
    rw [hx]
    have hact₁ : c₁.r.cgi.active = false := by
      cases hf with
      | left _ => exact hact
      | read bs _ _ _ => exact hact
    exact answer_startsGet (c := { c₁ with r := { c₁.r with inp := i } }) hact₁ hfed

theorem connStep_startsGet {lib : Libc} {c' : Conn} {a : ConnAct} (hp : StreamPhase c)
    (h : StartsGet c.tr) (hstep : connStep lib c a = some c') : StartsGet c'.tr := by
  obtain ⟨⟨hph, hbuf⟩, hinv⟩ := hp
  cases connStep_cases hstep with
  | takeSocket g hg => exact h
  | takePipe g hg => exact h
  | request es _ hf hd =>
    have hdel : StartsGet { c with sock := .off }.delTimer.tr :=
      startsGet_aside (c := { c with sock := .off }) h
        ⟨[.delTimer], rfl, by simp [Call.isAside, Call.isStart, Call.isStill]⟩
    obtain ⟨c₁, e, c₂, x, ⟨hloop, h₁⟩, hpass, hend⟩ := requestLoop_cases
      (P := fun c => LoopParsing c ∧ StartsGet c.tr)
      (fun e c c' hP hfree hpass => ⟨loopParsing_free hP.1 hfree hpass, by
        have hnext := @pass_startsGet c lib e (noScript_active hP.1.1.cgi) hP.2
        rw [hpass] at hnext
        exact hnext⟩)
      ⟨phase_loopParsing hph hbuf hf, hdel⟩ hd
    have h₂ := @pass_startsGet c₁ lib e (noScript_active hloop.1.cgi) h₁
    rw [hpass] at h₂
    rcases hend with ⟨-, ms, rfl⟩ | ⟨-, rfl⟩
    · exact startsGet_aside h₂ ⟨[.rearm .epollin, .addTimer ms], List.append_assoc _ _ _,
        by simp [Call.isAside, Call.isStart, Call.isStill]⟩
    · exact h₂
  | write e _ hf hd => exact startsGet_aside h (callback_aside hph rfl rfl hstep)
  | stdout answers reaped _ hf hd => exact startsGet_aside h (callback_aside hph rfl rfl hstep)
  | hangup ev reaped hf =>
    have hdel : Adds Call.isAside c c.delTimer :=
      ⟨[.delTimer], rfl, by simp [Call.isAside, Call.isStart, Call.isStill]⟩
    exact startsGet_aside h (adds_trans hdel (closeConn_aside reaped c.delTimer))
  | expire reaped hopen => exact startsGet_aside h (closeConn_aside reaped c)

theorem reached_startsGet {lib : Libc} (h : Reached lib c) : StartsGet c.tr := by
  obtain ⟨old, fd, cf, acts, hrun⟩ := h
  refine (run_invariant (P := fun c => StreamPhase c ∧ StartsGet c.tr)
    (fun s a s' hs hstep => ⟨connStep_stream hs.1 hstep, connStep_startsGet hs.1 hs.2 hstep⟩)
    ⟨@reached_stream lib _ ⟨old, fd, cf, [], rfl⟩, ?_⟩ hrun).2
  intro front call back heq hcall
  have hmem : call ∈ (acceptConn old fd cf).tr := by
    rw [heq]
    exact List.mem_append_right _ List.mem_cons_self
  obtain rfl := List.mem_singleton.mp hmem
  cases hcall

/-! ### Methods -/

theorem records_get (m : Method) (qs : List FittingRequest) (k : Nat) :
    (records m qs)[k]? =
      qs[k]?.map fun q => (q.text.served, q.methodAfter (lastMethod m (qs.take k))) := by
  induction qs generalizing m k with
  | nil => rfl
  | cons q qs ih =>
    cases k with
    | zero => rfl
    | succ k => exact ih (q.methodAfter m) k

theorem methodBefore_records {qs : List FittingRequest} {k : Nat} (hk : k < qs.length) :
    methodBefore (records .unknown qs) k = lastMethod .unknown (qs.take k) := by
  cases k with
  | zero => rfl
  | succ k =>
    have hlt : k < qs.length := Nat.lt_of_succ_lt hk
    show ((records .unknown qs)[k]?.map Prod.snd).getD .unknown = _
    rw [records_get, List.getElem?_eq_getElem hlt, List.take_add_one, List.getElem?_eq_getElem hlt]
    exact (lastMethod_concat _ _ _).symm

/-- `zv_cgi_start` is reached for a request whose method is `GET`. -/
theorem startedFor_get {k : Nat} {q : Served} {m : Method} {tr : List Call} (h : StartsGet tr)
    (hs : StartedFor k tr) (hk : (servesOf tr)[k]? = some (q, m)) : m = .get := by
  obtain ⟨front, call, back, rfl, hcall, hlen⟩ := hs
  obtain ⟨q', hlast⟩ := h front call back rfl hcall
  rw [List.getLast?_eq_getElem?, hlen, Nat.add_sub_cancel] at hlast
  rw [servesOf_append, List.getElem?_append_left (by omega), hlast] at hk
  exact (Prod.mk.inj (Option.some.inj hk)).2.symm

theorem startedFor_of {k i : Nat} {call : Call} {tr : List Call} (hi : tr[i]? = some call)
    (hcall : call.isStart = true) (hlen : (servesOf (tr.take i)).length = k + 1) :
    StartedFor k tr := by
  obtain ⟨hlt, hget⟩ := List.getElem?_eq_some_iff.mp hi
  refine ⟨tr.take i, call, tr.drop (i + 1), ?_, hcall, hlen⟩
  rw [← hget, ← List.drop_eq_getElem_cons hlt, List.take_append_drop]

theorem methodCode_get (token : Bytes) : methodCode token = .get ↔ token = ascii "GET" := by
  unfold methodCode
  split
  · next h => exact ⟨fun _ => h, fun _ => rfl⟩
  · next h =>
    refine ⟨fun hx => ?_, fun hx => absurd hx h⟩
    split at hx
    · cases hx
    · split at hx <;> cases hx

/-- A request that was served is read from the stream, by the one-shot parser, as it was served but
for the method. -/
theorem fresh_record {lib : Libc} {c : Conn} (h : Reached lib c) {k : Nat} {q : Served} {m : Method}
    (hk : (servesOf c.tr)[k]? = some (q, m)) :
    (requestsOf (received c.tr))[k]? = some (q, methodCode q.token) ∧
      m = (storedMethod q.token).getD (methodBefore (servesOf c.tr) k) := by
  obtain ⟨qs, rest, hs⟩ := (reached_stream h).2.streamed
  rw [hs.serves, records_get] at hk
  obtain ⟨p, hp, hqm⟩ := Option.map_eq_some_iff.mp hk
  obtain ⟨rfl, rfl⟩ := Prod.mk.inj hqm
  obtain ⟨hlt, -⟩ := List.getElem?_eq_some_iff.mp hp
  constructor
  · have hall := requestsOf_streamed hs []
    rw [List.append_nil] at hall
    rw [hall, List.getElem?_append_left (by rw [List.length_map]; exact hlt), List.getElem?_map, hp]
    rfl
  · rw [hs.serves, methodBefore_records hlt]
    rfl

theorem stored_fresh_iff (token : Bytes) (m₀ : Method) :
    (storedMethod token).getD m₀ = methodCode token ↔ storedMethod token ≠ none ∨ m₀ = .unknown := by
  rw [← methodCode_stored]
  cases storedMethod token with
  | none => exact ⟨.inr, fun hx => hx.elim (absurd rfl) id⟩
  | some m => exact ⟨fun _ => .inl (fun hx => by cases hx), fun _ => rfl⟩

end RequestMemoryLemmas

open RequestMemoryLemmas

/-- Every request is served as the parser reads it on a fresh block, but for the method: that is the
one the parser stores for the token, or else the one before it. It is that of a fresh block
just when the parser stores one, or when the block had none; and just then a request that came to
`zv_cgi_start` has the token `GET`. -/
theorem served_as_fresh_iff {lib : Libc} {c : Conn} (h : Reached lib c) {k : Nat} {q : Served}
    {m : Method} (hk : (servesOf c.tr)[k]? = some (q, m)) :
    ∃ m₀, (requestsOf (received c.tr))[k]? = some (q, m₀) ∧
      m = (storedMethod q.token).getD (methodBefore (servesOf c.tr) k) ∧
      (m = m₀ ↔ storedMethod q.token ≠ none ∨ methodBefore (servesOf c.tr) k = .unknown) ∧
      (StartedFor k c.tr → (q.token = ascii "GET" ↔
        storedMethod q.token ≠ none ∨ methodBefore (servesOf c.tr) k = .unknown)) := by
  obtain ⟨hfresh, hm⟩ := fresh_record h hk
  have hiff : m = methodCode q.token ↔
      storedMethod q.token ≠ none ∨ methodBefore (servesOf c.tr) k = .unknown := by
    rw [hm]
    exact stored_fresh_iff q.token _
  refine ⟨methodCode q.token, hfresh, hm, hiff, fun hs => ?_⟩
  have hget := startedFor_get (reached_startsGet h) hs hk
  rw [← methodCode_get, ← hiff, hget]
  exact eq_comm

/-- A `GET`, and behind it a `PUT` of a script. -/
def putScript : List PassEnv :=
  [{ missingPass with read := .ok (ascii "GET /a HTTP/1.1\r\n\r\n") },
    { startingPass with read := .ok (ascii "PUT /cgi-bin/x HTTP/1.1\r\n\r\n") }]

/-- The second request is served as `GET`, and its script is started. -/
theorem putScript_starts : ∃ c q, Reached sampleLib c ∧ q.token = ascii "PUT" ∧
    (servesOf c.tr)[1]? = some (q, .get) ∧ StartedFor 1 c.tr := by
  have hsome : (run (connStep sampleLib) (acceptConn Request.zero 7 ⟨some (ascii "/srv"), 0, 0⟩)
      [.takeSocket, .request putScript]).map (fun c =>
        ((servesOf c.tr)[1]?, (servesOf (c.tr.take 11)).length, c.tr[11]?)) =
      some (some (⟨ascii "PUT", ascii "/cgi-bin/x", 1, 1, []⟩, .get), 2,
        some (.fork 42 (ascii "/srv/cgi-bin/x")
          (cgiEnvp (ascii "/srv/cgi-bin/x") (ascii "/cgi-bin/x") none))) := by decide +kernel
  obtain ⟨c, hc, hshow⟩ := Option.map_eq_some_iff.mp hsome
  obtain ⟨hserved, hrest⟩ := Prod.mk.inj hshow
  obtain ⟨hfront, hfork⟩ := Prod.mk.inj hrest
  exact ⟨c, _, ⟨Request.zero, 7, _, _, hc⟩, rfl, hserved, startedFor_of hfork rfl hfront⟩

theorem served_as_fresh_iff_put : ∃ c q m₀, Reached sampleLib c ∧
    (servesOf c.tr)[1]? = some (q, .get) ∧ (requestsOf (received c.tr))[1]? = some (q, m₀) ∧
    (Method.get = m₀ ↔ storedMethod q.token ≠ none ∨ methodBefore (servesOf c.tr) 1 = .unknown) ∧
    (q.token = ascii "GET" ↔
      storedMethod q.token ≠ none ∨ methodBefore (servesOf c.tr) 1 = .unknown) := by
  obtain ⟨c, q, hr, -, hget, hstarted⟩ := putScript_starts
  obtain ⟨m₀, hm₀, -, hiff, htoken⟩ := served_as_fresh_iff hr hget
  exact ⟨c, q, m₀, hr, hget, hm₀, hiff, htoken hstarted⟩

/-- The same bytes on a fresh block are those of an unknown method. -/
theorem served_as_fresh_put : ∃ c q m₀, Reached sampleLib c ∧
    (servesOf c.tr)[1]? = some (q, .get) ∧ (requestsOf (received c.tr))[1]? = some (q, m₀) ∧
    m₀ ≠ .get ∧ StartedFor 1 c.tr ∧ q.token ≠ ascii "GET" := by
  obtain ⟨c, q, hr, htoken, hget, hstarted⟩ := putScript_starts
  have hput : q.token ≠ ascii "GET" := by
    rw [htoken]
    decide
  refine ⟨c, q, methodCode q.token, hr, hget, (fresh_record hr hget).1, ?_, hstarted, hput⟩
  exact fun hx => hput ((methodCode_get q.token).mp hx)

end Zaver
