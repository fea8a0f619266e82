import Zaver.HeaderDecisions
import Zaver.Persistence

/-!
# Framing on the client's side

A client that keeps a connection has to find the end of each response. `clientCut` does it by
the rules of HTTP/1.1: the header goes up to the first empty line; behind it there is no body
if the request was `HEAD` or the status is 304, and as many bytes as `Content-length` says
otherwise. The server never looks at the method when it prepares a response, so a `HEAD`
request for anything but an empty file or a file that was not modified is answered with a
body.

`Framed` follows the record of a connection: the responses to all earlier requests were whole,
and the last one is a part of a prepared response. `framing_in_step` is the result for runs in
which no `HEAD` request gets a body.
-/

namespace Zaver

open CString Chunked HeaderBlock Runs

/-! ## The client -/

/-- The request asks for the header only. -/
def Served.isHead (q : Served) : Bool := q.token == ascii "HEAD"

/-- The status in the first line of a header. -/
def statusText (header : Bytes) : Bytes := (header.drop 9).take 3

/-- The number of bytes that a client takes for the body of the response to `q`. -/
def bodyLength (q : Served) (header : Bytes) : Nat :=
  if q.isHead || statusText header == ascii "304" then 0 else announced header

/-- A client that cuts a stream into the responses to its requests, header and body, and
what is left over. -/
def clientCut : List Served → Bytes → Option (List (Bytes × Bytes) × Bytes)
  | [], s => some ([], s)
  | q :: qs, s =>
    match cutHeader s with
    | none => none
    | some (header, rest) =>
      if rest.length < bodyLength q header then none
      else
        (clientCut qs (rest.drop (bodyLength q header))).map fun cut =>
          ((header, rest.take (bodyLength q header)) :: cut.1, cut.2)

/-- What was accepted between each request and the next one. -/
def repliesOf : List Call → List Bytes
  | [] => []
  | call :: tr =>
    if call.isServe then accepted (tr.takeWhile fun x => !x.isServe) :: repliesOf tr
    else repliesOf tr

/-! ## Requests without a body in the answer -/

/-- The connection with the request that the parsers complete, if they complete one. -/
def parsedRequest (c : Conn) : Option Conn :=
  match parsePhases c.r.inp with
  | (i, .ok) => some { c with r := { c.r with inp := i } }
  | _ => none

/-- The connection with the request that the pass completes, if it completes one. -/
def completed (e : PassEnv) (c : Conn) : Option Conn :=
  if c.r.inp.parsePos ≥ c.r.inp.last then
    if c.r.inp.last ≥ MAX_BUF - 1 then none
    else
      match e.read with
      | .ok bs =>
        let bs := bs.take (MAX_BUF - c.r.inp.last - 1)
        if bs = [] then none
        else parsedRequest { c.emit [.recv bs] with r := { c.r with inp := c.r.inp.load bs } }
      | _ => none
  else parsedRequest c

/-- The request of `c` names a file that can be sent, and the file is empty or was not
modified. -/
structure Bodiless (lib : Libc) (e : PassEnv) (c : Conn) (filename : Bytes) (sb : FileStat) :
    Prop where
  static : isCgiUri (c.r.inp.span c.r.inp.uriStart c.r.inp.uriEnd) = false
  file : parseUri c.r.root (c.r.inp.span c.r.inp.uriStart c.r.inp.uriEnd) SHORTLINE = some filename
  stat : e.stat = some sb
  inside : isPathUnderRootReal e.realpath c.r.root filename = true
  regular : sb.isReg = true
  readable : sb.userRead = true
  empty : sb.size = 0 ∨ (staticOut lib e c.r.inp sb).modified = false

/-- No `HEAD` request that the step answers is for something with a body. -/
def HeadsBodiless (lib : Libc) (c : Conn) : ConnAct → Prop
  | .request es => ∀ es₁ e es₂ c₁ c₂, es = es₁ ++ e :: es₂ →
      passes lib { c with sock := .off }.delTimer es₁ = some c₁ → completed e c₁ = some c₂ →
      c₂.r.inp.served.isHead = true → ∃ filename sb, Bodiless lib e c₂ filename sb
  | _ => True

/-! ## Responses that fit their requests -/

/-- `bytes` is a whole prepared response, without a body if the request is `HEAD`. -/
def Fits (lib : Libc) (q : Served) (bytes : Bytes) : Prop :=
  ∃ o₀ payload, Composed lib o₀ ∧ bytes = headerText o₀ ++ payload ∧
    payload.length = payloadSize o₀ ∧ (q.isHead = true → payload = [])

/-- Every request of the record has its response, and nothing else was sent. -/
structure Matched (lib : Libc) (tr : List Call) : Prop where
  fits : List.Forall₂ (Fits lib) (servedOf tr) (repliesOf tr)
  all : accepted tr = (repliesOf tr).flatten

/-- The response to `q`, of which `response c` is out: none could be prepared and the connection
is closed, or it is a part of a prepared one, and all of it if the connection waits for input. -/
def Underway (lib : Libc) (c : Conn) (q : Served) : Prop :=
  (response c = [] ∧ c.isOpen = false) ∨
    ∃ o₀ o, Composed lib o₀ ∧ SendCompleteLemmas.Sending o₀ o (response c) ∧
      (q.isHead = true → payloadSize o₀ = 0) ∧
      (c.isOpen = true →
        if c.r.out.writing then o = c.r.out else ¬ SendCompleteLemmas.Short o)

/-- What the record says of the responses. -/
inductive Framed (lib : Libc) (c : Conn) : Prop
  | none : (∀ x ∈ c.tr, x.isServe = false) → accepted c.tr = [] →
      (c.isOpen = true → c.r.out.writing = false) → Framed lib c
  | some (t : List Call) (q : Served) (m : Method) (calls : List Call) :
      c.tr = t ++ .serve q m :: calls → (∀ x ∈ calls, x.isServe = false) → Matched lib t →
      Underway lib c q → Framed lib c

namespace FramingLemmas

open SendCompleteLemmas AnswerLemmas ConnectionLemmas PersistenceLemmas ResponseHeaderLemmas

/-! ### Cutting -/

theorem statusText_line {a b : Bytes} (ha : a.length = 3) (rest : Bytes) :
    statusText (ascii "HTTP/1.1 " ++ a ++ ascii " " ++ b ++ rest) = a := by
  have h9 : (ascii "HTTP/1.1 ").length = 9 := by decide
  unfold statusText
  rw [List.append_assoc, List.append_assoc, List.append_assoc, ← h9, List.drop_left, ← ha,
    List.take_left]

/-- The payload of a static response is the file, if it was modified. -/
theorem prepareStatic_payload {strftime : Int → Bytes} {openAns : Option Fd} {filename : Bytes}
    {filesize : UInt64} {out : HttpOut} {ms : Nat} {o : Output}
    (hok : (prepareStatic strftime openAns filename filesize out ms o).2.2 = true) :
    payloadSize (prepareStatic strftime openAns filename filesize out ms o).1 =
      if out.modified then filesize.toNat else 0 := by
  cases hm : out.modified with
  | false =>
    simp only [prepareStatic, hm]
    rfl
  | true =>
    cases openAns with
    | none =>
      simp only [prepareStatic, hm] at hok
      cases hok
    | some fd =>
      simp only [prepareStatic, hm]
      exact Nat.zero_add _

/-- A response of status 304 has no payload. -/
theorem composed_304 {lib : Libc} {o : Output} (h : Composed lib o)
    (hst : statusText (headerText o) = ascii "304") : payloadSize o = 0 := by
  cases h with
  | error page keepAlive ms o hpage =>
    have hnum : ∀ p ∈ errorStatuses, (cstr p.1).length = 3 ∧ cstr p.1 ≠ ascii "304" := by decide
    obtain ⟨hlen, hne⟩ := hnum _ hpage
    rw [headerText_prepareError hpage] at hst
    unfold errorFields at hst
    rw [List.append_assoc, List.cons_append, block_cons, statusText_line hlen] at hst
    exact absurd hst hne
  | static openAns filename filesize out ms o hstatus hok =>
    have hlt : out.status < 2 ^ 31 := by
      rw [hstatus]
      split <;> decide
    cases hm : out.modified with
    | false =>
      rw [prepareStatic_payload hok, hm]
      rfl
    | true =>
      rw [hm, if_pos rfl] at hstatus
      have hlen : (numeral 10 out.status).length = 3 := by
        rw [hstatus]
        decide
      rw [headerText_prepareStatic (lib.strftime_lt _) hlt] at hst
      unfold staticFields at hst
      rw [List.append_assoc, List.append_assoc, List.singleton_append, block_cons,
        statusText_line hlen, hstatus] at hst
      exact absurd hst (by decide)

/-- The client takes exactly the response. -/
theorem fits_cut {lib : Libc} {q : Served} {bytes : Bytes} (h : Fits lib q bytes) :
    ∃ header body, header ++ body = bytes ∧ ∀ rest, cutHeader (bytes ++ rest) =
      some (header, body ++ rest) ∧ bodyLength q header = body.length := by
  obtain ⟨o₀, payload, hcomp, rfl, hlen, hhead⟩ := h
  refine ⟨headerText o₀, payload, rfl, fun rest => ⟨?_, ?_⟩⟩
  · rw [List.append_assoc]
    exact (composed_header hcomp).1 _
  · unfold bodyLength
    rw [hcomp.prepared.read.1]
    split
    · next hno =>
      cases Bool.or_eq_true_iff.mp hno with
      | inl hq =>
        rw [hhead hq]
        rfl
      | inr hst => rw [hlen, composed_304 hcomp (eq_of_beq hst)]
    · exact hlen.symm

theorem clientCut_fits {lib : Libc} {qs : List Served} {replies : List Bytes}
    (h : List.Forall₂ (Fits lib) qs replies) : ∃ rs, clientCut qs replies.flatten = some (rs, []) ∧
      rs.map (fun r => r.1 ++ r.2) = replies := by
  induction h with
  | nil => exact ⟨[], rfl, rfl⟩
  | cons hfit hrest ih =>
    obtain ⟨header, body, heq, hcut⟩ := fits_cut hfit
    obtain ⟨rs, hrs, hmap⟩ := ih
    obtain ⟨hc, hn⟩ := hcut (List.flatten _)
    refine ⟨(header, body) :: rs, ?_, ?_⟩
    · rw [List.flatten_cons, clientCut, hc]
      dsimp only
      rw [hn, if_neg (by rw [List.length_append]; exact Nat.not_lt.mpr (Nat.le_add_right _ _)),
        List.drop_left, List.take_left, hrs]
      rfl
    · rw [List.map_cons, heq, hmap]

/-! ### The record -/

theorem repliesOf_none {t : List Call} (h : ∀ x ∈ t, x.isServe = false) : repliesOf t = [] := by
  induction t with
  | nil => rfl
  | cons x t ih =>
    rw [repliesOf, h x List.mem_cons_self]
    exact ih fun y hy => h y (List.mem_cons_of_mem _ hy)

theorem takeWhile_serve {t u : List Call} {q : Served} {m : Method} :
    (t ++ .serve q m :: u).takeWhile (fun x => !x.isServe) = t.takeWhile fun x => !x.isServe := by
  induction t with
  | nil => rfl
  | cons x t ih =>
    rw [List.cons_append, List.takeWhile_cons, List.takeWhile_cons]
    split
    · rw [ih]
    · rfl

theorem repliesOf_serve {t calls : List Call} {q : Served} {m : Method}
    (h : ∀ x ∈ calls, x.isServe = false) :
    repliesOf (t ++ .serve q m :: calls) = repliesOf t ++ [accepted calls] := by
  induction t with
  | nil =>
    have hall : calls.takeWhile (fun x => !x.isServe) = calls :=
      List.takeWhile_eq_self_iff.mpr fun x hx => by simp [h x hx]
    show accepted (calls.takeWhile fun x => !x.isServe) :: repliesOf calls = [accepted calls]
    rw [hall, repliesOf_none h]
  | cons x t ih =>
    rw [List.cons_append, repliesOf, repliesOf, takeWhile_serve, ih]
    split <;> rfl

theorem servedOf_none {t : List Call} (h : ∀ x ∈ t, x.isServe = false) : servedOf t = [] := by
  refine List.filterMap_eq_nil_iff.mpr fun x hx => ?_
  have hs := h x hx
  cases x with
  | serve q m => cases hs
  | _ => rfl

theorem servedOf_serve {t calls : List Call} {q : Served} {m : Method}
    (h : ∀ x ∈ calls, x.isServe = false) :
    servedOf (t ++ .serve q m :: calls) = servedOf t ++ [q] := by
  rw [servedOf_append]
  show servedOf t ++ q :: servedOf calls = _
  rw [servedOf_none h]

theorem matched_none {lib : Libc} {t : List Call} (h : ∀ x ∈ t, x.isServe = false)
    (hacc : accepted t = []) : Matched lib t := by
  refine ⟨?_, ?_⟩
  · rw [servedOf_none h, repliesOf_none h]
    exact .nil
  · rw [hacc, repliesOf_none h]
    rfl

theorem matched_serve {lib : Libc} {t calls : List Call} {q : Served} {m : Method}
    (ht : Matched lib t) (h : ∀ x ∈ calls, x.isServe = false) (hfit : Fits lib q (accepted calls)) :
    Matched lib (t ++ .serve q m :: calls) := by
  refine ⟨?_, ?_⟩
  · rw [servedOf_serve h, repliesOf_serve h]
    exact List.rel_append ht.fits (.cons hfit .nil)
  · rw [repliesOf_serve h, List.flatten_append, accepted_append, ht.all]
    show _ ++ accepted calls = _ ++ [accepted calls].flatten
    rw [List.flatten_singleton]

/-- A response of which nothing is left is whole. -/
theorem sending_fits {lib : Libc} {o₀ o : Output} {acc : Bytes} {q : Served}
    (hcomp : Composed lib o₀) (hs : Sending o₀ o acc) (hhead : q.isHead = true → payloadSize o₀ = 0)
    (hall : ¬ Short o) : Fits lib q acc := by
  obtain ⟨file, hacc, hoff, -, hfd⟩ := hs.parts
  have hmem : memOwed o = [] := by
    by_contra hne
    exact hall (.inl hne)
  have hpend : filePending o = false := by
    cases hp : filePending o with
    | false => rfl
    | true => exact absurd (.inr hp) hall
  rw [hmem, List.append_nil, (sending_prepared hcomp.prepared).2, List.append_assoc] at hacc
  obtain ⟨_, _, _, _, hframe⟩ := hs.frame
  have hlen : (bodyRest o₀ ++ file).length = payloadSize o₀ := by
    rw [List.length_append, payloadSize]
    cases hx : o₀.outFileFd with
    | none => rw [hfd hx]; rfl
    | some fd =>
      have hsome : o.outFileFd.isSome = true := by rw [hframe, hx]; rfl
      have hsize : o.outFileSize = o₀.outFileSize := by rw [hframe]
      have hge : ¬ o.outFileOffset < o.outFileSize := by
        intro hlt
        have : filePending o = true := by simp [filePending, hsome, hlt]
        cases this.symm.trans hpend
      have heq := Nat.le_antisymm hs.bound (Nat.not_lt.mp hge)
      rw [← hoff, heq, hsize]
      rfl
  refine ⟨o₀, bodyRest o₀ ++ file, hcomp, hacc, hlen, fun hq => ?_⟩
  exact List.eq_nil_of_length_eq_zero (hlen.trans (hhead hq))

/-- The record of a connection that waits for input. -/
theorem framed_matched {lib : Libc} {c : Conn} (h : Framed lib c)
    (hwhole : ∀ q, Underway lib c q → Fits lib q (response c)) : Matched lib c.tr := by
  cases h with
  | none hno hacc hidle => exact matched_none hno hacc
  | some t q m calls htr hno hm hu =>
    have hresp : response c = accepted calls := by
      unfold response
      rw [htr, sinceServe_serve hno]
    rw [htr]
    exact matched_serve hm hno (hresp ▸ hwhole q hu)

theorem underway_idle {lib : Libc} {c : Conn} (hopen : c.isOpen = true)
    (hidle : c.r.out.writing = false) {q : Served} (h : Underway lib c q) :
    Fits lib q (response c) := by
  rcases h with ⟨-, hclosed⟩ | ⟨o₀, o, hcomp, hs, hhead, hend⟩
  · cases hopen.symm.trans hclosed
  · have hall := hend hopen
    rw [hidle, if_neg (fun hx => by cases hx)] at hall
    exact sending_fits hcomp hs hhead hall

/-- Calls that send nothing, on a connection that is closed by them or keeps its output. -/
theorem framed_silent {lib : Libc} {c c' : Conn} (h : Framed lib c) (hsil : Adds Call.isSilent c c')
    (hkeep : c'.isOpen = true → c.isOpen = true ∧ c'.r.out = c.r.out) : Framed lib c' := by
  have hresp := response_silent hsil
  obtain ⟨calls', htr', hs'⟩ := hsil
  cases h with
  | none hno hacc hidle =>
    refine .none ?_ ?_ ?_
    · rw [htr']
      intro x hx
      cases List.mem_append.mp hx with
      | inl hx => exact hno x hx
      | inr hx => exact silent_not_serve hs' x hx
    · rw [htr', accepted_append, hacc, accepted_silent hs']
      rfl
    · intro hopen
      obtain ⟨hopen₀, hout⟩ := hkeep hopen
      rw [hout]
      exact hidle hopen₀
  | some t q m calls htr hno hm hu =>
    refine .some t q m (calls ++ calls') ?_ ?_ hm ?_
    · rw [htr', htr, List.append_assoc, List.cons_append]
    · intro x hx
      cases List.mem_append.mp hx with
      | inl hx => exact hno x hx
      | inr hx => exact silent_not_serve hs' x hx
    · rcases hu with ⟨hnil, hclosed⟩ | ⟨o₀, o, hcomp, hs, hhead, hend⟩
      · refine .inl ⟨hresp.trans hnil, ?_⟩
        cases hx : c'.isOpen with
        | false => rfl
        | true => cases (hkeep hx).1.symm.trans hclosed
      · refine .inr ⟨o₀, o, hcomp, hresp.symm ▸ hs, hhead, fun hopen => ?_⟩
        obtain ⟨hopen₀, hout⟩ := hkeep hopen
        rw [hout]
        exact hend hopen₀

/-! ### One pass -/

theorem completed_answer {lib : Libc} {e : PassEnv} {c c₂ : Conn} (h : completed e c = some c₂) :
    requestPass lib e c = answer lib e c₂ ∧ ∃ c₁ i, Fed c c₁ ∧ parsePhases c₁.r.inp = (i, .ok) ∧
      c₂ = { c₁ with r := { c₁.r with inp := i } } := by
  have hparse : ∀ c₁ : Conn, parsedRequest c₁ = some c₂ →
      parseAndAnswer lib e c₁ = answer lib e c₂ ∧
        ∃ i, parsePhases c₁.r.inp = (i, .ok) ∧ c₂ = { c₁ with r := { c₁.r with inp := i } } := by
    intro c₁ hc₁
    unfold parsedRequest at hc₁
    unfold parseAndAnswer
    generalize parsePhases c₁.r.inp = res at hc₁ ⊢
    obtain ⟨i, rc⟩ := res
    cases rc with
    | ok =>
      obtain rfl := Option.some.inj hc₁
      exact ⟨rfl, i, rfl, rfl⟩
    | _ => cases hc₁
  unfold completed at h
  dsimp only at h
  unfold requestPass
  split at h
  · next hle =>
    rw [if_pos hle]
    split at h
    · cases h
    · next hroom =>
      rw [if_neg hroom]
      split at h
      · next bs hread =>
        split at h
        · cases h
        · next hne =>
          rw [hread]
          dsimp only
          rw [if_neg hne]
          obtain ⟨hans, i, hpar, heq⟩ := hparse _ h
          refine ⟨hans, _, i, .read _ hle hne ?_, hpar, heq⟩
          have hlen : (bs.take (MAX_BUF - c.r.inp.last - 1)).length ≤ MAX_BUF - c.r.inp.last - 1 := by
            rw [List.length_take]
            exact Nat.min_le_left _ _
          omega
      · cases h
  · next hlt =>
    rw [if_neg hlt]
    obtain ⟨hans, i, hpar, heq⟩ := hparse c h
    exact ⟨hans, c, i, .left (Nat.not_le.mp hlt), hpar, heq⟩

theorem closeConn_active (reaped : Bool) (c : Conn) :
    (zvHttpCloseConn reaped c).r.cgi.active = false := by
  rw [(CgiRelayLemmas.zvHttpCloseConn_cgi reaped c).1]

/-- What a step leaves alone that sends nothing. -/
structure Still (c c' : Conn) : Prop where
  silent : Adds Call.isSilent c c'
  output : c'.isOpen = true → c.isOpen = true ∧ c'.r.out = c.r.out
  script : c.r.cgi.active = false → c'.r.cgi.active = false

theorem still_close {c c₁ : Conn} (h : Adds Call.isSilent c c₁) (reaped : Bool) :
    Still c (c₁.closeLabel reaped) :=
  ⟨adds_trans h (closeLabel_silent reaped c₁), (fun hx => by cases hx),
    fun _ => closeConn_active reaped c₁.reset⟩

/-- A pass that completes no request sends nothing. -/
theorem completed_none {lib : Libc} {e : PassEnv} {c : Conn} (h : completed e c = none) :
    Still c (requestPass lib e c).1 := by
  have hparse : ∀ c₁ : Conn, Still c c₁ → parsedRequest c₁ = none →
      Still c (parseAndAnswer lib e c₁).1 := by
    intro c₁ hstill hc₁
    unfold parsedRequest at hc₁
    unfold parseAndAnswer
    generalize parsePhases c₁.r.inp = res at hc₁ ⊢
    obtain ⟨i, rc⟩ := res
    cases rc with
    | ok => cases hc₁
    | again | invalidRequest => exact ⟨hstill.silent, hstill.output, hstill.script⟩
    | _ => exact @still_close c { c₁ with r := { c₁.r with inp := i } } hstill.silent _
  have hsame : Still c c := ⟨adds_refl _ _, fun hx => ⟨hx, rfl⟩, id⟩
  unfold completed at h
  dsimp only at h
  unfold requestPass
  split at h
  · next hle =>
    rw [if_pos hle]
    split at h
    · next hroom =>
      rw [if_pos hroom]
      exact still_close (adds_refl _ _) _
    · next hroom =>
      rw [if_neg hroom]
      split at h
      · next bs hread =>
        rw [hread]
        dsimp only
        split at h
        · next hnil =>
          rw [if_pos hnil]
          exact still_close (adds_refl _ _) _
        · next hne =>
          rw [if_neg hne]
          refine hparse _ ⟨⟨[.recv _], rfl, ?_⟩, fun hx => ⟨hx, rfl⟩, id⟩ h
          intro x hx
          obtain rfl := List.mem_singleton.mp hx
          rfl
      · next hread =>
        split
        · next bs hbs => exact absurd hbs (hread bs)
        · exact hsame
        · exact still_close (adds_refl _ _) _
  · next hlt =>
    rw [if_neg hlt]
    exact hparse c hsame h

/-! ### The answer -/

theorem requestDone_active {c : Conn} (h : c.r.cgi.active = false) (e : PassEnv) (keepAlive : Bool) :
    (requestDone e keepAlive c).1.r.cgi.active = false := by
  unfold requestDone
  split
  · exact closeConn_active _ _
  · dsimp only
    split
    · exact h
    · split
      · exact closeConn_active _ _
      · exact h

theorem deliver_active {c : Conn} (h : c.r.cgi.active = false) (e : PassEnv) (last keepAlive : Bool) :
    (deliver e last keepAlive c).1.r.cgi.active = false := by
  have hcgi : (c.trySend e.send).1.r.cgi.active = false := h
  unfold deliver
  generalize c.trySend e.send = res at hcgi ⊢
  obtain ⟨c₂, rc⟩ := res
  cases rc with
  | fail => exact closeConn_active _ _
  | inCall => exact hcgi
  | again =>
    dsimp only
    split
    · exact hcgi
    · exact requestDone_active (c := c₂.setWriting) hcgi e keepAlive
  | done =>
    dsimp only
    split
    · exact closeConn_active _ _
    · exact requestDone_active (c := c₂.reset) hcgi e keepAlive

theorem writeStatic_active {c : Conn} (h : c.r.cgi.active = false) (e : WriteEnv) :
    (writeStatic e c).1.r.cgi.active = false := by
  have hcgi : (c.trySend e.send).1.r.cgi.active = false := h
  unfold writeStatic
  generalize c.trySend e.send = res at hcgi ⊢
  obtain ⟨c₂, rc⟩ := res
  cases rc with
  | fail => exact closeConn_active _ _
  | inCall => exact hcgi
  | again => exact hcgi
  | done =>
    dsimp only
    split
    · exact closeConn_active _ _
    · exact hcgi

/-- The prepared response that the answer to such a request sends has no payload. -/
theorem answer_bodiless {lib : Libc} {e : PassEnv} {c : Conn} {filename : Bytes} {sb : FileStat}
    (h : Bodiless lib e c filename sb) :
    (∃ c₁ look, Prologue c c₁ look none ∧ answer lib e c = (c₁.closeLabel e.reaped, .closed)) ∨
      ∃ c₁ look file, Prologue c c₁ look file ∧ Composed lib c₁.r.out ∧ payloadSize c₁.r.out = 0 ∧
        answer lib e c = deliver e false c₁.r.out.keepAlive c₁ := by
  have hserve : answer lib e c =
      serveFile lib e filename (c.emit [.serve c.r.inp.served c.r.inp.method]) :=
    HeaderDecisionsLemmas.answer_static h.static h.file
  have h₀ := (asked_emptied c).stat filename
  rw [hserve]
  unfold serveFile
  dsimp only
  split
  · next hno => cases h.stat.symm.trans hno
  · next sb' hsb =>
    obtain rfl : sb = sb' := Option.some.inj (h.stat.symm.trans hsb)
    split
    · next hno => cases h.inside.symm.trans hno
    · split
      · next hno =>
        cases hno with
        | inl hno => cases h.regular.symm.trans hno
        | inr hno => cases h.readable.symm.trans hno
      · split
        · next c₁ hp =>
          obtain ⟨-, hno, -⟩ := prepareStatic_prologue h₀ (final_status (fresh_status lib e _)) hp
          exact .inl ⟨c₁, _, hno rfl, rfl⟩
        · next c₁ hp =>
          obtain ⟨hka, -, hyes⟩ := prepareStatic_prologue h₀ (final_status (fresh_status lib e _)) hp
          obtain ⟨⟨f, hpro⟩, hcomp⟩ := hyes rfl
          refine .inr ⟨c₁, _, f, hpro, hcomp, ?_, ?_⟩
          · obtain ⟨rfl, hok⟩ := Prod.mk.inj hp
            refine (prepareStatic_payload hok).trans ?_
            cases h.empty with
            | inl hsize =>
              have hzero : (0 : UInt64).toNat = 0 := rfl
              rw [hsize, hzero, ite_self]
            | inr hmod => exact if_neg fun hx => by cases hx.symm.trans hmod
          · rw [hka]
            rfl

/-! ### A pass keeps the framing -/

/-- No script was started. -/
def NoFork (tr : List Call) : Prop := ∀ pid file envp, Call.fork pid file envp ∉ tr

theorem delivered_underway {lib : Libc} {o₀ : Output} {c' : Conn} {q : Served}
    (h : Delivered o₀ c' true) (hcomp : Composed lib o₀)
    (hhead : q.isHead = true → payloadSize o₀ = 0) (hfiles : Call.sendfile [] ∉ c'.tr) :
    Underway lib c' q := by
  cases h with
  | short c hs hshort hsil hclosed =>
    exact .inr ⟨o₀, c.r.out, hcomp, (response_silent hsil).symm ▸ hs, hhead,
      fun hopen => by cases hopen.symm.trans hclosed⟩
  | waits c hs hshort hsil hout =>
    have hs' : Sending o₀ c'.r.out (response c') := by
      rw [hout, response_silent hsil]
      exact sending_writing hs
    have hw : c'.r.out.writing = true := by rw [hout]
    exact .inr ⟨o₀, c'.r.out, hcomp, hs', hhead, fun _ => (if_pos hw).symm ▸ rfl⟩
  | sent c hs hmem hfile hsil hkeep hidle =>
    refine .inr ⟨o₀, c.r.out, hcomp, (response_silent hsil).symm ▸ hs, hhead, fun _ => ?_⟩
    rw [hidle, if_neg (fun hx => by cases hx)]
    rintro (hne | hp)
    · exact hne hmem
    · exact hfiles (hfile hp)

/-- The record behind the answer to a request. -/
theorem prologue_record {c c₁ c' : Conn} {look : List Call} {file : Option (Bytes × Fd)}
    (h : Prologue c c₁ look file) {P : Call → Bool} (hadd : Adds P c₁ c')
    (hP : ∀ x, P x = true → x.isServe = false) : ∃ calls,
      c'.tr = c.tr ++ .serve c.r.inp.served c.r.inp.method :: calls ∧
        ∀ x ∈ calls, x.isServe = false := by
  obtain ⟨calls, htr, hall⟩ := hadd
  refine ⟨look ++ closeFd c.r.out.outFileFd ++
    (file.map fun f => Call.openFile f.1 f.2).toList ++ calls, ?_, ?_⟩
  · rw [htr, h.frame]
    simp
  · intro x hx
    cases List.mem_append.mp hx with
    | inl hx => exact silent_not_serve (prologue_silent h) x hx
    | inr hx => exact hP x (hall x hx)

theorem plain_not_serve (x : Call) (h : x.isPlain = true) : x.isServe = false := by
  cases x with
  | serve q m => cases h
  | _ => rfl

theorem reply_framed {lib : Libc} {e : PassEnv} {c c₁ : Conn} {look : List Call}
    {file : Option (Bytes × Fd)} {last : Bool} (hloop : AtLoop c) (hm : Matched lib c.tr)
    (hp : Prologue c c₁ look file) (hcomp : Composed lib c₁.r.out)
    (hlast : last = true → c₁.r.out.keepAlive = false)
    (hhead : c.r.inp.served.isHead = true → payloadSize c₁.r.out = 0)
    (hret : (deliver e last c₁.r.out.keepAlive c₁).2 ≠ .inCall)
    (hfiles : Call.sendfile [] ∉ (deliver e last c₁.r.out.keepAlive c₁).1.tr) :
    Framed lib (deliver e last c₁.r.out.keepAlive c₁).1 ∧
      (deliver e last c₁.r.out.keepAlive c₁).1.r.cgi.active = false := by
  have hin := prologue_inside hp hloop.toInside
  have hact := noScript_active hin.cgi
  have hend := deliver_delivered (e := e) hcomp.prepared (prologue_response hp).1 hin hlast
  rw [decide_eq_true hret] at hend
  obtain ⟨calls, htr, hno⟩ := prologue_record hp
    (deliver_plain hact e last c₁.r.out.keepAlive) plain_not_serve
  exact ⟨.some c.tr _ _ calls htr hno hm (delivered_underway hend hcomp hhead hfiles),
    deliver_active hact e last _⟩

theorem refused_framed {lib : Libc} {c c₁ : Conn} {look : List Call} (hm : Matched lib c.tr)
    (hp : Prologue c c₁ look none) (reaped : Bool) :
    Framed lib (c₁.closeLabel reaped) ∧ (c₁.closeLabel reaped).r.cgi.active = false := by
  obtain ⟨calls, htr, hno⟩ := prologue_record hp (closeLabel_silent reaped c₁) (by
    intro x hx
    cases x with
    | serve q m => cases hx
    | _ => rfl)
  refine ⟨.some c.tr _ _ calls htr hno hm (.inl ⟨?_, rfl⟩), closeConn_active _ _⟩
  rw [response_silent (closeLabel_silent reaped c₁)]
  exact (prologue_response hp).1

theorem answer_framed {lib : Libc} {e : PassEnv} {c : Conn} (hloop : AtLoop c)
    (hm : Matched lib c.tr)
    (hhead : c.r.inp.served.isHead = true → ∃ filename sb, Bodiless lib e c filename sb)
    (hret : (answer lib e c).2 ≠ .inCall) (hfiles : Call.sendfile [] ∉ (answer lib e c).1.tr)
    (hfork : NoFork (answer lib e c).1.tr) :
    Framed lib (answer lib e c).1 ∧ (answer lib e c).1.r.cgi.active = false := by
  cases hq : c.r.inp.served.isHead with
  | true =>
    obtain ⟨filename, sb, hb⟩ := hhead hq
    rcases answer_bodiless hb with ⟨c₁, look, hp, heq⟩ | ⟨c₁, look, file, hp, hcomp, hsize, heq⟩
    · rw [heq]
      exact refused_framed hm hp e.reaped
    · rw [heq] at hret hfiles ⊢
      exact reply_framed hloop hm hp hcomp (fun hx => by cases hx) (fun _ => hsize) hret hfiles
  | false =>
    have hans := answer_cases lib e c
    generalize answer lib e c = x at *
    cases hans with
    | refused c₁ look hp => exact refused_framed hm hp e.reaped
    | reply c₁ look file last hp hcomp hlast hlook =>
      exact reply_framed hloop hm hp hcomp hlast (fun hx => by cases hx.symm.trans hq) hret hfiles
    | started i file envp pid inR inW outR outW hi hmeth hu =>
      refine absurd ?_ (hfork pid file envp)
      exact List.mem_append_right _ (by simp)

theorem requestPass_framed {lib : Libc} {e : PassEnv} {c : Conn} (hloop : AtLoop c)
    (hf : Framed lib c)
    (hhead : ∀ c₂, completed e c = some c₂ → c₂.r.inp.served.isHead = true →
      ∃ filename sb, Bodiless lib e c₂ filename sb)
    (hret : (requestPass lib e c).2 ≠ .inCall)
    (hfiles : Call.sendfile [] ∉ (requestPass lib e c).1.tr)
    (hfork : NoFork (requestPass lib e c).1.tr) :
    Framed lib (requestPass lib e c).1 ∧ (requestPass lib e c).1.r.cgi.active = false := by
  cases hc : completed e c with
  | none =>
    have hstill := @completed_none lib e c hc
    exact ⟨framed_silent hf hstill.silent hstill.output, hstill.script (noScript_active hloop.cgi)⟩
  | some c₂ =>
    obtain ⟨hans, c₁, i, hfed, hpar, hc₂⟩ := @completed_answer lib e c c₂ hc
    have hloop₂ : AtLoop c₂ := hc₂ ▸ parsed_loop (fed_loop hloop hfed) hpar (.inr rfl)
    have hsil : Adds Call.isSilent c c₂ := by
      have hfs := fed_silent hfed
      rw [hc₂]
      exact hfs
    have hf₂ : Framed lib c₂ := by
      refine framed_silent hf hsil fun _ => ⟨hloop.isOpen, ?_⟩
      rw [hc₂]
      cases hfed with
      | left => rfl
      | read => rfl
    have hm := framed_matched hf₂ fun q => underway_idle hloop₂.isOpen hloop₂.out.writing
    rw [hans] at hret hfiles hfork ⊢
    exact answer_framed hloop₂ hm (hhead c₂ hc) hret hfiles hfork

/-! ### Runs -/

theorem noFork_front {t u : List Call} (h : t <+: u) (hu : NoFork u) : NoFork t :=
  fun pid file envp hx => hu pid file envp (h.subset hx)

theorem requestLoop_framed {lib : Libc} {es : List PassEnv} {c c' : Conn} (hloop : AtLoop c)
    (hf : Framed lib c)
    (hhead : ∀ es₁ e es₂ c₁ c₂, es = es₁ ++ e :: es₂ → passes lib c es₁ = some c₁ →
      completed e c₁ = some c₂ → c₂.r.inp.served.isHead = true →
      ∃ filename sb, Bodiless lib e c₂ filename sb)
    (h : requestLoop lib c es = (c', true)) (hfiles : Call.sendfile [] ∉ c'.tr)
    (hfork : NoFork c'.tr) : Framed lib c' ∧ c'.r.cgi.active = false := by
  induction es generalizing c with
  | nil => cases congrArg Prod.snd h
  | cons e es ih =>
    have hfirst := @requestPass_framed lib e c hloop hf fun c₂ => hhead [] e es c c₂ rfl rfl
    have hok := requestPass_ok lib e hloop
    unfold requestLoop at h
    cases hpass : requestPass lib e c with
    | mk c₁ x =>
      rw [hpass] at h hfirst hok
      cases x with
      | next =>
        have hloop₁ := hok.next rfl
        have hgrow := @requestLoop_tr lib es c₁ hloop₁
        rw [show requestLoop lib c₁ es = (c', true) from h] at hgrow
        obtain ⟨hf₁, -⟩ := hfirst (fun hx => by cases hx) (fun hx => hfiles (hgrow.subset hx))
          (noFork_front hgrow hfork)
        refine ih hloop₁ hf₁ (fun es₁ e' es₂ c₂ c₃ hes hps => ?_) h
        have hps' : passes lib c (e :: es₁) = some c₂ := by
          rw [passes, hpass]
          exact hps
        exact hhead (e :: es₁) e' es₂ c₂ c₃ (by rw [hes]; rfl) hps'
      | idle =>
        have hsil : Adds Call.isSilent c₁ c' := by
          obtain rfl := (Prod.mk.inj h).1
          refine ⟨[.rearm .epollin, .addTimer _], List.append_assoc _ _ _, ?_⟩
          simp [Call.isSilent]
        have hgrow := adds_tr hsil
        obtain ⟨hf₁, hact⟩ := hfirst (fun hx => by cases hx) (fun hx => hfiles (hgrow.subset hx))
          (noFork_front hgrow hfork)
        obtain rfl := (Prod.mk.inj h).1
        exact ⟨framed_silent hf₁ hsil fun hx => ⟨hx, rfl⟩, hact⟩
      | returned =>
        obtain rfl := (Prod.mk.inj h).1
        exact hfirst (fun hx => by cases hx) hfiles hfork
      | closed =>
        obtain rfl := (Prod.mk.inj h).1
        exact hfirst (fun hx => by cases hx) hfiles hfork
      | inCall => cases congrArg Prod.snd h

theorem writeStatic_framed {lib : Libc} {e : WriteEnv} {c c' : Conn} (hopen : c.isOpen = true)
    (hwr : c.r.out.writing = true) (hact : c.r.cgi.active = false) (hf : Framed lib c)
    (hw : writeStatic e c.delTimer = (c', true)) (hfiles : Call.sendfile [] ∉ c'.tr) :
    Framed lib c' ∧ c'.r.cgi.active = false := by
  have hresp : response c.delTimer = response c :=
    response_silent ⟨[.delTimer], rfl, by simp [Call.isSilent]⟩
  have hactive := @writeStatic_active c.delTimer hact e
  have hplain := @writeStatic_plain e c.delTimer hact
  rw [hw] at hactive hplain
  refine ⟨?_, hactive⟩
  obtain ⟨more, hmore, hpl⟩ := hplain
  cases hf with
  | none hno hacc hidle => cases hwr.symm.trans (hidle hopen)
  | some t q m calls htr hno hm hu =>
    have hu' : Underway lib c' q := by
      rcases hu with ⟨-, hclosed⟩ | ⟨o₀, o, hcomp, hs, hhead, hend⟩
      · cases hopen.symm.trans hclosed
      · have ho := hend hopen
        rw [hwr, if_pos rfl] at ho
        subst ho
        have hdel := @writeStatic_delivered o₀ e c.delTimer (hresp.symm ▸ hs) hopen
        rw [hw] at hdel
        exact delivered_underway hdel hcomp hhead hfiles
    refine .some t q m (calls ++ .delTimer :: more) ?_ ?_ hm hu'
    · rw [hmore]
      show c.tr ++ [.delTimer] ++ more = _
      rw [htr]
      simp
    · intro x hx
      rcases List.mem_append.mp hx with hx | hx
      · exact hno x hx
      · rcases List.mem_cons.mp hx with rfl | hx
        · rfl
        · exact plain_not_serve x (hpl x hx)

theorem waits_unique {g : Reg} {ev ev' : Interest} (h : g.waits ev = true)
    (h' : g.waits ev' = true) : ev = ev' := by
  cases Bool.or_eq_true_iff.mp h with
  | inl harmed =>
    rw [eq_of_beq harmed] at h'
    simpa [Reg.waits] using h'
  | inr hfired => exact (fired_waits (eq_of_beq hfired) h').symm

/-- What is kept along a run: while no file has shrunk and no script was started, the record
is framed. -/
def FramedPhase (lib : Libc) (c : Conn) : Prop :=
  Phase c ∧ (Call.sendfile [] ∉ c.tr → NoFork c.tr → Framed lib c ∧ c.r.cgi.active = false)

theorem connStep_kept {lib : Libc} {c c' : Conn} {a : ConnAct} (h : FramedPhase lib c)
    (hG : HeadsBodiless lib c a) (hstep : connStep lib c a = some c') : FramedPhase lib c' := by
  obtain ⟨hph, hkept⟩ := h
  have hgrow := connStep_tr hph hstep
  refine ⟨connStep_phase hph hstep, fun hfiles hfork => ?_⟩
  obtain ⟨hf, hact⟩ := hkept (fun hx => hfiles (hgrow.subset hx)) (noFork_front hgrow hfork)
  have hdel : Adds Call.isSilent c { c with sock := .off }.delTimer :=
    ⟨[.delTimer], rfl, by simp [Call.isSilent]⟩
  cases connStep_cases hstep with
  | takeSocket g hg => exact ⟨framed_silent hf (adds_refl _ _) fun hx => ⟨hx, rfl⟩, hact⟩
  | takePipe g hg => exact ⟨framed_silent hf (adds_refl _ _) fun hx => ⟨hx, rfl⟩, hact⟩
  | request es _ hfired hd =>
    have hf₁ := framed_silent hf hdel fun hx => ⟨hx, rfl⟩
    exact requestLoop_framed (phase_loop hph hfired) hf₁ hG hd hfiles hfork
  | write e _ hfired hd =>
    have hno : ¬ c.r.cgi.active = true := fun hx => by cases hx.symm.trans hact
    have hw : writeStatic e { c with sock := .off }.delTimer = (c', true) :=
      (if_neg hno).symm.trans hd
    cases hph with
    | writing hopen hsock hpipe hout =>
      have hf₁ : Framed lib { c with sock := .off } :=
        framed_silent hf (adds_refl _ _) fun hx => ⟨hx, rfl⟩
      exact @writeStatic_framed lib e { c with sock := .off } c' hopen hout hact hf₁ hw hfiles
    | cgiWriting hopen hsock hpipe hs => exact absurd hs.active hno
    | reading hopen hsock => cases fired_waits hfired hsock
    | cgiReading hopen hsock | closed hopen hsock => cases hfired.symm.trans hsock
  | stdout answers reaped _ hfired hd =>
    cases hph with
    | cgiReading hopen hsock hpipe hs => cases hs.active.symm.trans hact
    | reading hopen hsock hpipe | writing hopen hsock hpipe | cgiWriting hopen hsock hpipe
    | closed hopen hsock hpipe => cases hfired.symm.trans hpipe
  | hangup ev reaped hfired =>
    refine ⟨framed_silent hf ?_ (fun hx => by cases hx), closeConn_active _ _⟩
    exact adds_trans hdel (closeConn_silent reaped _)
  | expire reaped hopen =>
    refine ⟨framed_silent hf ?_ (fun hx => by cases hx), closeConn_active _ _⟩
    exact closeConn_silent reaped c

end FramingLemmas

open FramingLemmas PersistenceLemmas

/-! ## The client stays in step -/

/-- Nothing of the last response is missing: the connection waits for the next request, or the
response was received in full. -/
def AllOut (c : Conn) : Prop :=
  (c.isOpen = true ∧ c.sock.waits .epollin = true) ∨
    ∃ header payload, cutHeader (response c) = some (header, payload) ∧
      payload.length = announced header

/-- For every run of a connection in which no `HEAD` request is answered with a body, no file
shrinks while it is sent and no script is started: whenever nothing of the last response is
missing, the client cuts what it received into one response for each request, in the order of
the requests, each one just what was sent for it, with nothing left over. -/
theorem framing_in_step {lib : Libc} {old : Request} {fd : Fd} {cf : Conf} {acts : List ConnAct}
    {c : Conn} (hrun : run (connStep lib) (acceptConn old fd cf) acts = some c)
    (hheads : Along (connStep lib) (HeadsBodiless lib) (acceptConn old fd cf) acts)
    (hfiles : Call.sendfile [] ∉ c.tr) (hfork : ∀ pid file envp, Call.fork pid file envp ∉ c.tr)
    (hall : AllOut c) :
    ∃ rs, clientCut (servedOf c.tr) (accepted c.tr) = some (rs, []) ∧
      rs.length = (servedOf c.tr).length ∧ rs.map (fun r => r.1 ++ r.2) = repliesOf c.tr := by
  have hinit : FramedPhase lib (acceptConn old fd cf) := by
    refine ⟨phase_accept old fd cf, fun _ _ => ⟨.none ?_ rfl fun _ => rfl, rfl⟩⟩
    intro x hx
    obtain rfl := List.mem_singleton.mp hx
    rfl
  obtain ⟨hph, hkept⟩ := run_invariant_along (fun _ _ _ => connStep_kept) hinit hheads hrun
  obtain ⟨hf, hact⟩ := hkept hfiles hfork
  have hm : Matched lib c.tr := by
    refine framed_matched hf fun q hu => ?_
    rcases hall with ⟨hopen, hsock⟩ | ⟨header, payload, hcut, hlen⟩
    · cases hph with
      | reading _ _ hpipe hout => exact underway_idle hopen hout.writing hu
      | writing _ hsock' | cgiWriting _ hsock' => cases waits_unique hsock hsock'
      | cgiReading _ hoff | closed _ hoff =>
        rw [hoff] at hsock
        cases hsock
    · rcases hu with ⟨hnil, -⟩ | ⟨o₀, o, hcomp, hs, hhead, -⟩
      · rw [hnil] at hcut
        cases hcut
      · obtain ⟨rfl, hwhole⟩ := sending_cut hcomp hs hcut
        refine sending_fits hcomp hs hhead (hwhole ?_)
        rw [WholeBody, (composed_header hcomp).2]
        exact hlen
  obtain ⟨rs, hcut, hmap⟩ := clientCut_fits hm.fits
  refine ⟨rs, ?_, ?_, hmap⟩
  · rw [hm.all]
    exact hcut
  · rw [hm.fits.length_eq, ← hmap, List.length_map]

/-- The client sends `bytes`, which ask for a file that is not there, and takes the answer. -/
def missingRun (bytes : Bytes) : List ConnAct :=
  [.takeSocket,
    .request [{ missingPass with read := .ok bytes }, { missingPass with read := .eagain }]]

/-- The connection behind them. -/
def missingEnd (bytes : Bytes) : Option Conn :=
  run (connStep sampleLib) (acceptConn Request.zero 7 ⟨some (ascii "/srv"), 0, 0⟩) (missingRun bytes)

theorem framing_in_step_missing : ∃ c rs, missingEnd (ascii "GET /a HTTP/1.1\r\n\r\n") = some c ∧
    (servedOf c.tr).length = 1 ∧ clientCut (servedOf c.tr) (accepted c.tr) = some (rs, []) ∧
    rs.length = (servedOf c.tr).length := by
  have hsome : (missingEnd (ascii "GET /a HTTP/1.1\r\n\r\n")).map (fun c =>
      (decide (Call.sendfile [] ∉ c.tr), c.tr.all fun x => !x matches .fork _ _ _, c.isOpen, c.sock,
        (servedOf c.tr).length)) = some (true, true, true, .armed .epollin, 1) := by
    decide +kernel
  obtain ⟨c, hc, hfields⟩ := Option.map_eq_some_iff.mp hsome
  simp only [Prod.mk.injEq, decide_eq_true_eq] at hfields
  obtain ⟨hfiles, hfork, hopen, hsock, hlen⟩ := hfields
  have hheads : Along (connStep sampleLib) (HeadsBodiless sampleLib)
      (acceptConn Request.zero 7 ⟨some (ascii "/srv"), 0, 0⟩)
      (missingRun (ascii "GET /a HTTP/1.1\r\n\r\n")) := by
    refine ⟨trivial, fun c₀ hc₀ => ⟨fun es₁ e es₂ c₁ c₂ hes hpass hdone hhead => ?_,
      fun _ _ => trivial⟩⟩
    obtain rfl : missingConn = c₀ := Option.some.inj hc₀
    cases es₁ with
    | nil =>
      obtain ⟨rfl, -⟩ := List.cons_eq_cons.mp hes
      obtain rfl := Option.some.inj hpass
      have hget : (completed { missingPass with read := .ok (ascii "GET /a HTTP/1.1\r\n\r\n") }
          { missingConn with sock := .off }.delTimer).map (fun c => c.r.inp.served.isHead) =
          some false := by decide +kernel
      rw [hdone] at hget
      cases hhead.symm.trans (Option.some.inj hget)
    | cons e₁ es₁ =>
      obtain ⟨rfl, hrest⟩ := List.cons_eq_cons.mp hes
      cases es₁ with
      | nil =>
        obtain ⟨rfl, -⟩ := List.cons_eq_cons.mp hrest
        have hnone : ((passes sampleLib { missingConn with sock := .off }.delTimer
            [{ missingPass with read := .ok (ascii "GET /a HTTP/1.1\r\n\r\n") }]).bind
            (completed { missingPass with read := .eagain })).isSome = false := by decide +kernel
        rw [hpass, Option.bind_some, hdone] at hnone
        cases hnone
      | cons e₂ es₁ =>
        have hnil := (List.cons_eq_cons.mp hrest).2
        simp at hnil
  obtain ⟨rs, hcut, hrs, -⟩ := framing_in_step hc hheads hfiles
    (fun pid file envp hx => by cases (List.all_eq_true.mp hfork _ hx)) (.inl ⟨hopen, by rw [hsock]; rfl⟩)
  exact ⟨c, rs, hc, hlen, hcut, hrs⟩

/-- A `HEAD` request for a file that is not there: the client takes the header of the answer, and
the page behind it is left over. -/
theorem head_answered_with_body : ∃ c, missingEnd (ascii "HEAD /a HTTP/1.1\r\n\r\n") = some c ∧
    Call.sendfile [] ∉ c.tr ∧ (∀ pid file envp, Call.fork pid file envp ∉ c.tr) ∧ AllOut c ∧
    ¬ ∃ rs, clientCut (servedOf c.tr) (accepted c.tr) = some (rs, []) := by
  have hsome : (missingEnd (ascii "HEAD /a HTTP/1.1\r\n\r\n")).map (fun c =>
      (decide (Call.sendfile [] ∉ c.tr), c.tr.all fun x => !x matches .fork _ _ _, c.isOpen, c.sock,
        (clientCut (servedOf c.tr) (accepted c.tr)).map fun cut => cut.2.isEmpty)) =
      some (true, true, true, .armed .epollin, some false) := by
    decide +kernel
  obtain ⟨c, hc, hfields⟩ := Option.map_eq_some_iff.mp hsome
  simp only [Prod.mk.injEq, decide_eq_true_eq] at hfields
  obtain ⟨hfiles, hfork, hopen, hsock, hcut⟩ := hfields
  refine ⟨c, hc, hfiles, (fun pid file envp hx => by cases (List.all_eq_true.mp hfork _ hx)),
    .inl ⟨hopen, by rw [hsock]; rfl⟩, ?_⟩
  rintro ⟨rs, hrs⟩
  rw [hrs] at hcut
  cases hcut

end Zaver
